import DripOS.Proc.SchedLock

/-!
# Runs of the scheduler under its lock

The sections that hold `sched_lock` outside `schedule`, and the interleavings of the processors.

`SchedLock.one_scheduler` : as long as there is no exception and no idle thread is killed, one
processor at a time is in `schedule`, with the lock, which the processor that has it releases, and
no thread is the current thread of two processors.  `SchedLock.two_schedulers` shows what an
exception does.
-/

namespace DripOS

open Function Option List

namespace SchedLock

variable {g g' : Table} {cpu d tid : ℕ} {l l' : Cpu} {th th' : Thread} {p : ℕ × ℕ}

/-! ### The other sections -/

theorem TableOk.create (hok : TableOk g) (state : ThreadState) (f : ℕ → Option ℕ)
    (hf : f = g.idleOf ∨ state = .blocked ∧ ∃ c, f = update g.idleOf g.nextIdent (some c) ∧
      ∀ id, g.idleOf id ≠ some c) :
    TableOk { g.create state with idleOf := f } := by
  have hold : ∀ id, id < g.nextIdent → f id = g.idleOf id := by
    intro id hid
    rcases hf with rfl | ⟨-, c, rfl, -⟩
    · rfl
    · exact update_of_ne hid.ne _ _
  have hnew : ∀ c, f g.nextIdent = some c → state = .blocked ∧ ∀ id, g.idleOf id ≠ some c := by
    intro c hc
    rcases hf with rfl | ⟨hblocked, d, rfl, hnone⟩
    · exact absurd (hok.ghosts.idleOf _ c hc) (Nat.lt_irrefl _)
    · rw [update_self] at hc
      cases hc
      exact ⟨hblocked, hnone⟩
  -- a thread is the new one, or was there before
  have hcases : ∀ i th, { g.create state with idleOf := f }.get i = some th →
      i = g.threads.alloc.1 ∧ th = ⟨g.nextIdent, state, 0, false, none⟩ ∨
        i ≠ g.threads.alloc.1 ∧ g.get i = some th := by
    intro i th hi
    have hi := (get_create g state i).symm.trans hi
    split_ifs at hi with hslot
    · exact .inl ⟨hslot, (Option.some.inj hi).symm⟩
    · exact .inr ⟨hslot, hi⟩
  refine ⟨hok.lock, hok.good, hok.busy, fun i th hi => ?_, fun i j th th' hi hj hident => ?_, ?_⟩
  · rcases hcases i th hi with ⟨rfl, rfl⟩ | ⟨-, hi⟩
    · have hwaits : ∀ j, (j, g.nextIdent) ∉ g.waiters := fun j hj =>
        Nat.lt_irrefl _ (hok.ghosts.waiters _ hj)
      refine ⟨Nat.lt_succ_self _, fun c hc => ?_, fun hw => absurd hw (hwaits _),
        fun c hc => ⟨(hnew c hc).1, hwaits _⟩⟩
      exact absurd (hok.ghosts.runner _ c hc) (Nat.lt_irrefl _)
    · have hth := hok.thread i th hi
      refine ⟨hth.fresh.trans (Nat.lt_succ_self _), hth.runs, hth.waits, fun c hid => hth.idle c ?_⟩
      rw [← hold _ hth.fresh]
      exact hid
  · rcases hcases i th hi with ⟨rfl, rfl⟩ | ⟨-, hi⟩ <;>
      rcases hcases j th' hj with ⟨rfl, rfl⟩ | ⟨-, hj⟩
    · rfl
    · exact absurd (hok.thread j th' hj).fresh (by simp [← hident])
    · exact absurd (hok.thread i th hi).fresh (by simp [hident])
    · exact hok.ident i j th th' hi hj hident
  · have hlt : ∀ id, id < g.nextIdent → id < g.nextIdent + 1 := fun id h => Nat.lt_succ_of_lt h
    have hcase : ∀ id c, f id = some c → id = g.nextIdent ∨ g.idleOf id = some c := by
      intro id c hc
      rcases hf with rfl | ⟨-, d, rfl, -⟩
      · exact .inr hc
      · rcases eq_or_ne id g.nextIdent with rfl | hne
        · exact .inl rfl
        · exact .inr (by rwa [update_of_ne hne] at hc)
    refine ⟨fun id c h => hlt id (hok.ghosts.runner id c h),
      fun p h => hlt _ (hok.ghosts.waiters p h), fun id c h => ?_, fun id id' c h h' => ?_,
      fun id c d h hrun => ?_, fun p hp => ?_⟩
    · rcases hcase id c h with rfl | h
      · exact Nat.lt_succ_self _
      · exact hlt id (hok.ghosts.idleOf id c h)
    · rcases hcase id c h with rfl | h1 <;> rcases hcase id' c h' with rfl | h2
      · rfl
      · exact absurd h2 ((hnew c h).2 id')
      · exact absurd h1 ((hnew c h').2 id)
      · exact hok.ghosts.idleUnique id id' c h1 h2
    · have hid := hok.ghosts.runner id d hrun
      exact hok.ghosts.idleRuns id c d ((hold id hid).symm.trans h) hrun
    · obtain ⟨hp1, hp2⟩ := hok.ghosts.dying p hp
      exact ⟨hlt _ hp1, (hold _ hp1).trans hp2⟩

theorem get_create_of_some {state : ThreadState} (h : g.get tid = some th) :
    (g.create state).get tid = some th := by
  rw [get_create, if_neg, h]
  rintro rfl
  cases (Slots.get_alloc_free g.threads).symm.trans h

theorem Kept.boot (hok : TableOk g) (hc : CpuOk cpu g l) (hpc : l.pc = .off)
    (hfree : g.lock = false) : Kept cpu g
      { g.create .blocked with idleOf := update g.idleOf g.nextIdent (some cpu) }
      ⟨.running, none, g.threads.alloc.1⟩ := by
  obtain ⟨hnone, hbusy⟩ := hok.busy_none hfree
  have hstage := hc.stage
  rw [hpc] at hstage
  obtain ⟨hcur, hidleOf⟩ := hstage
  have hne : ∀ i th, g.get i = some th → th.ident ≠ g.nextIdent := fun i th hi =>
    (hok.thread i th hi).fresh.ne
  refine ⟨hok.create .blocked _ (.inr ⟨rfl, cpu, rfl, hidleOf⟩),
    ⟨?_, ?_, fun id => ?_, fun _ => ?_, trivial⟩, fun d ld hd hld => ?_⟩
  · simp [Table.create, hnone, Pc.holds]
  · simp [Table.create, hbusy, Pc.busy]
  · refine (hc.runner id).trans ?_
    simp [hcur]
  · exact ⟨_, (get_create g .blocked _).trans (if_pos rfl), update_self _ _ _⟩
  · refine hld.other (by simp [hnone]) (by simp [Table.create, hnone]) (fun h => h)
      (fun _ => Iff.rfl) (fun tid th hth hid => ⟨th, get_create_of_some hth, ?_⟩) (fun id hid => ?_)
      hok.busy
    · exact (update_of_ne (hne tid th hth) _ _).trans hid
    · rcases eq_or_ne id g.nextIdent with rfl | hid'
      · have hcpu := (update_self g.nextIdent (some cpu) g.idleOf).symm.trans hid
        exact absurd (Option.some.inj hcpu).symm hd
      · exact (update_of_ne hid' _ _).symm.trans hid

/-- The processor has the lock, and is not in `schedule`. -/
structure Locked (cpu : ℕ) (g : Table) (l : Cpu) : Prop where
  ok : TableOk g
  cpu : CpuOk cpu g l
  pc : l.pc = .locked

namespace Locked

variable (h : Locked cpu g l)
include h

theorem holder : g.holder = some cpu := h.cpu.holds.2 (by rw [h.pc]; rfl)

theorem busy : g.busy = none := by
  refine h.ok.busy_eq_none h.holder fun hb => ?_
  have := h.cpu.busy.1 hb
  rw [h.pc] at this
  cases this

theorem holds : l.pc.holds = true := by
  rw [h.pc]
  rfl

theorem busy_eq : g.busy = if l.pc.busy then some cpu else none := by
  rw [h.pc, h.busy]
  rfl

theorem stage (g' : Table) : StageOk cpu g' l l.pc := by
  rw [h.pc]
  trivial

/-- Nobody is inside: a thread that can be picked or is asleep runs nowhere. -/
theorem runs (hget : g.get tid = some th) {c : ℕ} (hrun : g.runner th.ident = some c) :
    th.cpu = c ∧ (th.state = .running ∨ th.state = .blocked) := by
  rcases (h.ok.thread tid th hget).runs c hrun with hb | hdone
  · cases h.busy.symm.trans hb
  · exact hdone

theorem waits (hget : g.get tid = some th) (hw : (tid, th.ident) ∈ g.waiters) :
    th.state = .blocked ∧ g.runner th.ident = none := by
  obtain ⟨hblocked, hrun⟩ := (h.ok.thread tid th hget).waits hw
  exact ⟨hblocked, by simpa [h.busy] using hrun⟩

end Locked

section

variable (hl : Locked cpu g l)
include hl

theorem Locked.suspend {how : Suspend} (h : lockedStep cpu (.suspend how) g l = some (g', l')) :
    Kept cpu g g' l' := by
  obtain ⟨⟨p, th⟩, hp, h⟩ := bind_eq_some_iff.1 h
  obtain ⟨p', hcur, hp⟩ := bind_eq_some_iff.1 hp
  obtain ⟨th', hderef, heq⟩ := map_eq_some_iff.1 hp
  cases heq
  obtain ⟨hget, hident, hrun, hth⟩ := hl.cpu.deref hl.ok hcur hderef
  by_cases hguard : p.1 = l.idleTid ∨ (how = .sleep ∧ th.state ≠ .running)
  · simp only [if_pos hguard] at h
    cases h
  simp only [if_neg hguard] at h
  cases h
  have hnotw : (p.1, th.ident) ∉ g.waiters := fun hw => by
    cases hrun.symm.trans (hl.waits hget hw).2
  have hmem : ∀ q, q ∈ (if how = .futex then p :: g.waiters else g.waiters) →
      q ∈ g.waiters ∨ q = p ∧ how = .futex := by
    intro q hq
    split_ifs at hq with hf
    · rcases mem_cons.1 hq with rfl | hq
      · exact .inr ⟨rfl, hf⟩
      · exact .inl hq
    · exact .inl hq
  refine .changeThread hl.ok hl.cpu hl.holder (fun q hq => ?_) hl.ok.ghosts.dying rfl rfl rfl rfl
    trivial { th with state := how.state th.state } hget rfl rfl
    ⟨hth.fresh, fun c hc' => .inl ?_, fun hw => ⟨?_, .inr hrun⟩, fun c hid => ?_⟩
    fun i th1 hip hi => ?_
  · rcases hmem q hq with hq | ⟨rfl, -⟩
    · exact hl.ok.ghosts.waiters q hq
    · rw [← hident]
      exact hth.fresh
  · exact hrun.symm.trans hc'
  · rcases hmem _ hw with hw | ⟨-, rfl⟩
    · exact absurd hw hnotw
    · rfl
  · -- the thread is not idle
    obtain rfl := hl.ok.ghosts.idleRuns _ c cpu hid hrun
    obtain ⟨th2, hth2, hid2⟩ := hl.cpu.idle (hl.cpu.ne_off hl.holder)
    have heq := hl.ok.ghosts.idleUnique _ _ cpu hid hid2
    exact absurd (.inl (hl.ok.ident _ _ _ _ hget hth2 heq)) hguard
  · have hmem1 : (i, th1.ident) ∈ (if how = .futex then p :: g.waiters else g.waiters) →
        (i, th1.ident) ∈ g.waiters := fun hw =>
      (hmem _ hw).resolve_right fun h => hip (congrArg Prod.fst h.1)
    refine ⟨(hl.ok.thread i th1 hi).fresh, fun c hc' => .inr (hl.runs hi hc'), fun hw => ?_,
      fun c hid => ?_⟩
    · obtain ⟨hblocked, hnone⟩ := hl.waits hi (hmem1 hw)
      exact ⟨hblocked, .inl hnone⟩
    · obtain ⟨hblocked, hw⟩ := (hl.ok.thread i th1 hi).idle c hid
      exact ⟨hblocked, fun h => hw (hmem1 h)⟩

theorem Locked.create {blocked : Bool} (h : lockedStep cpu (.create blocked) g l = some (g', l')) :
    Kept cpu g g' l' := by
  cases h
  have hok' := hl.ok.create (if blocked then .blocked else .ready) g.idleOf (.inl rfl)
  refine ⟨hok', ⟨hl.cpu.holds, hl.cpu.busy, hl.cpu.runner, fun hoff => ?_, hl.stage _⟩,
    fun d ld hd hld => ?_⟩
  · obtain ⟨th, hth, hid⟩ := hl.cpu.idle hoff
    exact ⟨th, get_create_of_some hth, hid⟩
  · exact hld.other (by simp [hl.holder, hd.symm]) (by simp [Table.create, hl.holder, hd.symm])
      (fun h => h) (fun _ => Iff.rfl) (fun tid th hth hid => ⟨th, get_create_of_some hth, hid⟩)
      (fun _ h => h) hl.ok.busy

theorem Locked.wake (h : lockedStep cpu (.wake tid) g l = some (g', l')) : Kept cpu g g' l' := by
  obtain ⟨th, hget, h⟩ := bind_eq_some_iff.1 h
  split_ifs at h with hsleep
  cases h
  have hth := hl.ok.thread tid th hget
  refine .changeThread hl.ok hl.cpu hl.holder hl.ok.ghosts.waiters hl.ok.ghosts.dying rfl rfl
    hl.holds hl.busy_eq (hl.stage _) { th with state := .ready, running := false } hget rfl rfl
    ⟨hth.fresh, fun c hc' => ?_, fun hw => ?_, fun c hid => ?_⟩
    fun i th1 _ hi => (hl.ok.thread i th1 hi).lists
  · have := (hl.runs hget hc').2
    simp [hsleep] at this
  · have := (hl.waits hget hw).1
    simp [hsleep] at this
  · have := (hth.idle c hid).1
    simp [hsleep] at this

theorem Locked.futexWake (h : lockedStep cpu (.futexWake p) g l = some (g', l')) :
    Kept cpu g g' l' := by
  dsimp only [lockedStep] at h
  split_ifs at h with hp
  obtain ⟨th, hderef, heq⟩ := map_eq_some_iff.1 h
  cases heq
  obtain ⟨hget, hident⟩ := deref_eq_some.1 hderef
  have hth := hl.ok.thread _ th hget
  have hp' : (p.1, th.ident) = p := by rw [hident]
  obtain ⟨hblocked, hnone⟩ := hl.waits hget (by rwa [hp'])
  refine .changeThread hl.ok hl.cpu hl.holder (fun q hq => ?_) hl.ok.ghosts.dying rfl rfl hl.holds
    hl.busy_eq (hl.stage _) { th with state := .ready } hget rfl rfl
    ⟨hth.fresh, fun c hc' => ?_, fun hw => ?_, fun c hid => ?_⟩ fun i th1 hip hi => ?_
  · exact hl.ok.ghosts.waiters q (mem_filter.1 hq).1
  · cases hnone.symm.trans hc'
  · have := (mem_filter.1 hw).2
    simp [hp'] at this
  · exact absurd (by rwa [hp']) (hth.idle c hid).2
  · have hth1 := hl.ok.thread i th1 hi
    refine ⟨hth1.fresh, hth1.runs, fun hw => hth1.waits (mem_filter.1 hw).1, fun c hid => ?_⟩
    exact ⟨(hth1.idle c hid).1, fun hw => (hth1.idle c hid).2 (mem_filter.1 hw).1⟩

theorem Locked.kill (hkill : ∀ th ∈ g.get tid, g.idleOf th.ident = none)
    (h : lockedStep cpu (.kill tid) g l = some (g', l')) : Kept cpu g g' l' := by
  obtain ⟨th, hget, heq⟩ := map_eq_some_iff.1 h
  have hth := hl.ok.thread tid th hget
  have hnone := hkill th hget
  -- in both cases the thread is blocked, and nothing but a list changes
  have hblock (dying gone : List (ℕ × ℕ))
      (hlists : ∀ p, p ∈ dying ∨ p ∈ gone → p = (tid, th.ident) ∨ p ∈ g.dying ∨ p ∈ g.gone) :
      Kept cpu g { g.setThread tid (some { th with state := .blocked }) with
        dying := dying, gone := gone } l := by
    refine .changeThread hl.ok hl.cpu hl.holder hl.ok.ghosts.waiters (fun p hp => ?_) rfl rfl
      hl.holds hl.busy_eq (hl.stage _) { th with state := .blocked } hget rfl rfl
      ⟨hth.fresh, fun c hc' => ?_, fun hw => ⟨rfl, ?_⟩, fun c hid => ?_⟩
      fun i th1 _ hi => (hl.ok.thread i th1 hi).lists
    · rcases hlists p hp with rfl | hp
      · exact ⟨hth.fresh, hnone⟩
      · exact hl.ok.ghosts.dying p hp
    · exact .inr ⟨(hl.runs hget hc').1, .inr rfl⟩
    · exact (hth.waits hw).2
    · cases hnone.symm.trans hid
  split_ifs at heq <;> cases heq
  · exact hblock g.dying _ fun p hp => or_left_comm.1 (hp.imp_right mem_cons.1)
  · exact hblock _ g.gone fun p hp => or_assoc.1 (hp.imp_left mem_cons.1)

theorem Locked.remove (h : lockedStep cpu (.remove p) g l = some (g', l')) : Kept cpu g g' l' := by
  dsimp only [lockedStep] at h
  split_ifs at h with hp
  obtain ⟨th, hderef, heq⟩ := map_eq_some_iff.1 h
  cases heq
  obtain ⟨hget, hident⟩ := deref_eq_some.1 hderef
  have hget' : ∀ i, (g.setThread p.1 none).get i = if i = p.1 then none else g.get i :=
    get_setThread hget none
  refine .change hl.ok hl.cpu hl.holder hl.ok.ghosts.waiters
    (fun q hq => hl.ok.ghosts.dying q (hq.imp_right mem_of_mem_erase)) rfl rfl hl.holds
    hl.busy_eq (hl.stage _) rfl (fun i th1 hi => ?_) fun i th0 c hi hid => ?_
  · have hi := (hget' i).symm.trans hi
    split_ifs at hi
    exact ⟨(hl.ok.thread i th1 hi).lists, th1, hi, rfl⟩
  · refine ⟨th0, (hget' i).trans ?_, rfl⟩
    rw [if_neg, hi]
    rintro rfl
    cases hget.symm.trans hi
    have hnone := (hl.ok.ghosts.dying p (.inr hp)).2
    rw [← hident, hid] at hnone
    cases hnone

theorem lockedStep_kept {op : Op}
    (hkill : ∀ tid, op = .kill tid → ∀ th ∈ g.get tid, g.idleOf th.ident = none)
    (h : lockedStep cpu op g l = some (g', l')) : Kept cpu g g' l' := by
  cases op with
  | suspend how => exact hl.suspend h
  | create blocked => exact hl.create h
  | wake tid => exact hl.wake h
  | futexWake p => exact hl.futexWake h
  | kill tid => exact hl.kill (hkill tid rfl) h
  | remove p => exact hl.remove h
  | release =>
    cases h
    refine .release hl.ok hl.cpu hl.holder fun tid th _ _ hb => ?_
    cases hl.busy.symm.trans hb

end

theorem cpuStep_kept {a : Stmt} (hok : TableOk g) (hc : CpuOk cpu g l)
    (hexc : ∀ tids, a ≠ .exception tids)
    (hkill : ∀ tid, a = .locked (.kill tid) → ∀ th ∈ g.get tid, g.idleOf th.ident = none)
    (h : cpuStep cpu a g l = some (g', l')) : Kept cpu g g' l' := by
  unfold cpuStep at h
  split at h
  · rename_i hpc
    split_ifs at h with hlock
    cases h
    exact .boot hok hc hpc (by simpa using hlock)
  · rename_i hpc
    split_ifs at h with hlock <;> cases h
    · exact ⟨hok, hc, fun _ _ _ h => h⟩
    · exact .take hok hc (.inside .save) (by simpa using hlock) hpc rfl fun _ => trivial
  · rename_i hpc
    split_ifs at h with hlock
    cases h
    have hfree : g.lock = false := by simpa using hlock
    have htake := Kept.take hok hc .locked hfree hpc rfl fun _ => trivial
    rwa [show { g.take cpu with busy := if Pc.locked.busy then some cpu else none } = g.take cpu by
      rw [Table.take, (hok.busy_none hfree).2]; rfl] at htake
  · rename_i op hpc
    exact lockedStep_kept ⟨hok, hc, hpc⟩ (fun tid hop => hkill tid (by rw [hop])) h
  · rename_i hpc
    cases h
    exact .setPc hok hc (by rw [hpc]; rfl) (by rw [hpc]; rfl) (by simp [hpc]) trivial
  · rename_i event stage hpc
    exact scheduleStep_kept hok hc hpc h
  · rename_i tids _
    exact absurd rfl (hexc tids)
  · rename_i stage hpc
    have := hc.stage
    rw [hpc] at this
    exact this.elim
  · cases h

/-! ### Every interleaving -/

/-- A call of `kill_thread` that leaves its wait changes only the lists of such calls. -/
theorem waitStep_kept {b : WaitStmt} (hok : TableOk g) (h : waitStep b g = some g') :
    TableOk g' ∧ ∀ d l, CpuOk d g l → CpuOk d g' l := by
  dsimp only [waitStep] at h
  split_ifs at h with hp
  obtain ⟨th, -, h⟩ := bind_eq_some_iff.1 h
  split_ifs at h
  cases h
  refine ⟨⟨hok.lock, hok.good, hok.busy, fun i th hi => (hok.thread i th hi).lists, hok.ident, ?_⟩,
    fun d l hl => ⟨hl.holds, hl.busy, hl.runner, hl.idle, hl.stage⟩⟩
  · refine ⟨hok.ghosts.runner, hok.ghosts.waiters, hok.ghosts.idleOf, hok.ghosts.idleUnique,
      hok.ghosts.idleRuns, fun q hq => hok.ghosts.dying q ?_⟩
    rcases hq with hq | hq
    · exact .inl (mem_of_mem_erase hq)
    · rcases mem_cons.1 hq with rfl | hq
      · exact .inl hp
      · exact .inr hq

theorem tableOk_init : TableOk init.shared := by
  refine ⟨rfl, rfl, ?_, ?_, ?_, ⟨?_, ?_, ?_, ?_, ?_, ?_⟩⟩ <;> simp [init, Table.get, Slots.get]

theorem cpuOk_init (cpu : ℕ) : CpuOk cpu init.shared (init.loc cpu) := by
  refine ⟨?_, ?_, ?_, ?_, ?_⟩ <;> simp [init, Pc.holds, Pc.busy, StageOk]

theorem holds_of_run {ls : List (Act ℕ Stmt WaitStmt)} {c : Conf ℕ Table Cpu}
    (hrun : Run (system.Step NoException) init ls c) : System.Holds TableOk CpuOk c := by
  refine System.invariant hrun ⟨tableOk_init, cpuOk_init⟩ ?_ ?_
  · intro c b g hc _ hstep
    obtain ⟨hok, hcpus⟩ := waitStep_kept hc.shared hstep
    exact ⟨hok, fun d => hcpus d _ (hc.loc d)⟩
  · intro c cpu a g l hc hP hstep
    have hkept := cpuStep_kept hc.shared (hc.loc cpu) (fun tids ha => by subst ha; exact hP)
      (fun tid ha => by subst ha; exact hP) hstep
    exact ⟨hkept.ok, hkept.own, fun d hd => hkept.others d _ hd (hc.loc d)⟩

/-- The processor is in `schedule`. -/
def Pc.Inside (pc : Pc) : Prop := ∃ stage, pc = .inside stage

/-- **One processor at a time is in `schedule`, and it has `sched_lock`; the lock is released by the
processor that has it; and no thread is the current thread of two processors**, in every
interleaving without an exception in which no idle thread is killed. -/
theorem one_scheduler {ls : List (Act ℕ Stmt WaitStmt)} {c : Conf ℕ Table Cpu}
    (hrun : Run (system.Step NoException) init ls c) :
    (∀ i j, (c.loc i).pc.Inside → (c.loc j).pc.Inside → i = j) ∧
    (∀ i, (c.loc i).pc.Inside → c.shared.lock = true ∧ c.shared.holder = some i) ∧
    c.shared.badRelease = false ∧
    ∀ i j p, (c.loc i).currentThread = some p → (c.loc j).currentThread = some p → i = j := by
  obtain ⟨hok, hcpus⟩ := holds_of_run hrun
  have hholder : ∀ i, (c.loc i).pc.Inside → c.shared.holder = some i := by
    rintro i ⟨stage, hi⟩
    exact (hcpus i).holds.2 (by rw [hi]; rfl)
  refine ⟨fun i j hi hj => ?_, fun i hi => ⟨?_, hholder i hi⟩, hok.good, fun i j p hi hj => ?_⟩
  · exact Option.some.inj ((hholder i hi).symm.trans (hholder j hj))
  · rw [hok.lock, hholder i hi]
    rfl
  · have hrun (k : ℕ) (hk : (c.loc k).currentThread = some p) : c.shared.runner p.2 = some k :=
      ((hcpus k).runner p.2).2 ⟨p.1, hk⟩
    exact Option.some.inj ((hrun i hi).symm.trans (hrun j hj))

/-- Two processors are started, and there are two threads. -/
def twoCpus : List (Act ℕ Stmt WaitStmt) :=
  [.proc 0 .boot, .proc 1 .boot, .proc 0 .acquire, .proc 0 (.locked (.create false)),
    .proc 0 (.locked (.create false)), .proc 0 (.locked .release)]

/-- A processor goes through `schedule`. -/
def schedules (cpu steps : ℕ) : List (Act ℕ Stmt WaitStmt) :=
  .proc cpu .tick :: List.replicate steps (.proc cpu (.schedule false))

/-- One processor runs a thread, and the other one is in `schedule`. -/
theorem one_scheduler_twoCpus : ∃ c, Run (system.Step NoException) init
      (twoCpus ++ schedules 0 4 ++ schedules 1 4 ++ schedules 0 5 ++ schedules 1 3) c ∧
    (c.loc 0).currentThread = some (2, 2) ∧ (c.loc 1).currentThread = some (3, 3) ∧
    (c.loc 1).pc.Inside ∧ c.shared.holder = some 1 ∧ ¬ (c.loc 0).pc.Inside := by
  obtain ⟨c, hrun, h0, h1, hpc⟩ : ∃ c, Run (system.Step NoException) init
      (twoCpus ++ schedules 0 4 ++ schedules 1 4 ++ schedules 0 5 ++ schedules 1 3) c ∧
      (c.loc 0).currentThread = some (2, 2) ∧ (c.loc 1).currentThread = some (3, 3) ∧
      (c.loc 1).pc = .inside (.dispatch (some 3)) := System.exists_run (by decide +kernel)
  obtain ⟨hone, hholder, -⟩ := one_scheduler hrun
  refine ⟨c, hrun, h0, h1, ⟨_, hpc⟩, (hholder 1 ⟨_, hpc⟩).2, fun hin => ?_⟩
  cases hone 0 1 hin ⟨_, hpc⟩

/-- The thread of one processor has an exception, while the other one has picked a thread. -/
def exceptionRun : List (Act ℕ Stmt WaitStmt) :=
  twoCpus ++ schedules 0 4 ++ schedules 1 4 ++ schedules 0 5 ++ [.proc 0 (.exception [2])] ++
    List.replicate 5 (.proc 0 .exceptionNext) ++ schedules 1 2 ++ [.proc 0 .exceptionNext]

/-- **Two processors in `schedule`.**  After an exception a processor enters `schedule` without the
lock, and releases the lock that another one has.  Then it gets the lock from the timer, and both
make the same thread their current thread. -/
theorem two_schedulers :
    (∃ c, Run (system.Step fun _ _ => True) init exceptionRun c ∧
      (c.loc 0).pc = .inside .save ∧ (c.loc 1).pc = .inside (.candidate 3 3) ∧
      c.shared.holder = some 1) ∧
    (∃ c, Run (system.Step fun _ _ => True) init
      (exceptionRun ++ List.replicate 4 (.proc 0 (.schedule false))) c ∧
      c.shared.badRelease = true ∧ c.shared.lock = false ∧
      (c.loc 1).pc = .inside (.candidate 3 3)) ∧
    ∃ c, Run (system.Step fun _ _ => True) init
      (exceptionRun ++ List.replicate 4 (.proc 0 (.schedule false)) ++ schedules 0 3 ++
        [.proc 1 (.schedule false)]) c ∧
      (c.loc 0).currentThread = some (3, 3) ∧ (c.loc 1).currentThread = some (3, 3) := by
  exact ⟨System.exists_run (by decide +kernel), System.exists_run (by decide +kernel),
    System.exists_run (by decide +kernel)⟩

end SchedLock

end DripOS
