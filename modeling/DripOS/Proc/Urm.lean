import DripOS.Proc.Scheduler
import DripOS.Lib.Run

/-!
# Processes and their threads

`urm_kill_process` and `urm_execve` of `src/proc/urm.c` go through the numbers of the threads that a
process lists.  `kill_thread` does not take the number of its thread off the list.

`Sched.groups_exact` : the lists are right in every run in which no thread of a process is killed
alone, and then `urm_kill_process` kills threads of its process only.  `Sched.killed_elsewhere`
shows what happens otherwise.
-/

namespace DripOS

open Slots Nat Option

namespace Sched

/-- `kill_thread` as one operation.  A thread that was never run keeps the 0 in `cpu`, and no
processor ever leaves it. -/
def killThreadSync (s : Sched) (tid : ℕ) : Except SchedHalt Sched := do
  let thread ← s.getThread tid
  let s ← s.killThread tid
  if thread.cpu = -1 then .ok s
  else if thread.running then
    let s ← s.leaveCpu (some tid)
    s.killResume tid thread.ident
  else .error .hang

/-- `urm_kill_process`, without the address space and the files. -/
def urmKillProcess (s : Sched) (pid : ℕ) : Except SchedHalt Sched :=
  match get s.processes pid with
  | none => .error .fault
  | some process => do
    let s ← process.threads.reduceOption.foldlM killThreadSync s
    .ok { s with processes := s.processes.set pid none }

/-- The loop of `urm_execve` for one slot of the process. -/
def clearThread (p : Sched × ThreadGroup) (i : ℕ) : Sched × ThreadGroup :=
  match get p.2.threads i with
  | none => p
  | some tid =>
    (p.1.setThread tid none,
      { p.2 with
        threads := p.2.threads.set i none
        childThreadCount := p.2.childThreadCount - 1 })

/-- `urm_execve` for an executable that was loaded. -/
def urmExecve (s : Sched) (pid : ℕ) : Except SchedHalt Sched :=
  match get s.processes pid with
  | none => .error .fault
  | some process => do
    let (s, process) := (List.range process.threads.length).foldl clearThread (s, process)
    let s := { s with processes := s.processes.set pid (some process) }
    let (thread, s) := s.createThread .ready
    let (_, s) ← s.addNewChildThread thread pid
    .ok s

variable {s s' : Sched} {tid pid : ℕ} {group : ThreadGroup}

theorem killThreadSync_ok (h : s.killThreadSync tid = .ok s') :
    ∃ thread, get s.threads tid = some thread ∧ Removed s s' tid thread := by
  obtain ⟨thread, hthread, h⟩ := bind_eq_ok.1 h
  have hget := getThread_eq_ok.1 hthread
  obtain ⟨s1, hkill, h⟩ := bind_eq_ok.1 h
  obtain ⟨thread', hget', hcase⟩ := killThread_ok hkill
  cases hget.symm.trans hget'
  refine ⟨thread, hget, ?_⟩
  rcases hcase with ⟨hcpu, hremoved⟩ | ⟨hcpu, rfl⟩
  · -- the thread was on no processor
    rw [if_pos hcpu] at h
    cases h
    exact hremoved
  · have hget1 := get_setThread hget (some { thread with state := .blocked })
    rw [if_neg hcpu] at h
    split_ifs at h
    obtain ⟨s2, hleave, hresume⟩ := bind_eq_ok.1 h
    obtain ⟨hget2, hsame2⟩ := leaveCpu_ok hleave
    obtain ⟨thread2, hthread2, -, -, hthreads, hsame, hprocs⟩ := killResume_ok hresume
    have hthread2' : thread2.parent = thread.parent := by
      have heq := (hget2 tid).symm.trans hthread2
      obtain ⟨th, hth, rfl⟩ := map_eq_some_iff.1 heq
      cases ((hget1 tid).trans (if_pos rfl)).symm.trans hth
      rw [if_pos rfl]
      rfl
    have hprocs2 : s2.processes = s.processes := by rw [hsame2]; rfl
    rw [hthread2', hprocs2] at hprocs
    refine ⟨fun i => ?_, by rw [hsame, hsame2]; rfl, hprocs⟩
    rw [hthreads]
    split_ifs with hi
    · rfl
    · refine (hget2 i).trans ?_
      have hne : some tid ≠ some i := fun heq => hi (Option.some.inj heq).symm
      rw [show get _ i = get s.threads i from (hget1 i).trans (if_neg hi)]
      simp [hne]

/-! ### The lists of threads -/

/-- A live thread of a process. -/
def Child (s : Sched) (pid ident tid : ℕ) : Prop :=
  ∃ thread, get s.threads tid = some thread ∧ thread.parent = some (pid, ident)

theorem Child.pid_unique {j ident ident' : ℕ} (h : s.Child j ident tid)
    (h' : s.Child pid ident' tid) : j = pid := by
  obtain ⟨th, hth, hp⟩ := h
  obtain ⟨th', hth', hp'⟩ := h'
  cases hth.symm.trans hth'
  exact congrArg Prod.fst (Option.some.inj (hp.symm.trans hp'))

/-- The list of a process is that of its live threads, without repetition, and counted right. -/
structure GroupOk (s : Sched) (pid : ℕ) (group : ThreadGroup) : Prop where
  nodup : group.threads.reduceOption.Nodup
  mem_iff : ∀ tid, tid ∈ group.threads.reduceOption ↔ s.Child pid group.ident tid
  count : group.childThreadCount = group.threads.reduceOption.length

/-- The lists of all processes are right. -/
structure GroupsOk (s : Sched) : Prop where
  group : ∀ pid group, get s.processes pid = some group → GroupOk s pid group
  fresh : ∀ pid ident tid, s.Child pid ident tid → ident < s.nextIdent
  ident : ∀ pid group, get s.processes pid = some group → group.ident < s.nextIdent

theorem groupsOk_init : GroupsOk init := by
  refine ⟨?_, ?_, ?_⟩ <;> simp [init, Child, Slots.get]

/-- A process whose threads and whose list stay keeps its list right. -/
theorem GroupOk.congr (h : GroupOk s pid group)
    (hchild : ∀ tid, s'.Child pid group.ident tid ↔ s.Child pid group.ident tid) :
    GroupOk s' pid group :=
  ⟨h.nodup, fun tid => (h.mem_iff tid).trans (hchild tid).symm, h.count⟩

theorem GroupsOk.congr (h : GroupsOk s)
    (hchild : ∀ pid ident tid, s'.Child pid ident tid ↔ s.Child pid ident tid)
    (hprocs : ∀ j, get s'.processes j = get s.processes j)
    (hnext : s.nextIdent ≤ s'.nextIdent) : GroupsOk s' := by
  refine ⟨fun pid group hg => ?_, fun pid ident tid hc => ?_, fun pid group hg => ?_⟩
  · rw [hprocs] at hg
    exact (h.group pid group hg).congr (hchild pid group.ident)
  · exact (h.fresh pid ident tid ((hchild pid ident tid).1 hc)).trans_le hnext
  · rw [hprocs] at hg
    exact (h.ident pid group hg).trans_le hnext

/-- One process is replaced, and the threads of the others stay. -/
theorem GroupsOk.replace (h : GroupsOk s) {pid : ℕ} {group' : Option ThreadGroup}
    (hchild : ∀ j ident tid, j ≠ pid → (s'.Child j ident tid ↔ s.Child j ident tid))
    (hprocs : ∀ j, get s'.processes j = if j = pid then group' else get s.processes j)
    (hnext : s.nextIdent ≤ s'.nextIdent)
    (hgroup : ∀ g, group' = some g → GroupOk s' pid g ∧ g.ident < s'.nextIdent)
    (hfresh : ∀ ident tid, s'.Child pid ident tid → ident < s'.nextIdent) : GroupsOk s' := by
  refine ⟨fun j g hg => ?_, fun j ident tid hc => ?_, fun j g hg => ?_⟩
  · rw [hprocs] at hg
    split_ifs at hg with hj
    · rw [hj]
      exact (hgroup g hg).1
    · exact (h.group j g hg).congr fun tid => hchild j g.ident tid hj
  · by_cases hj : j = pid
    · exact hfresh ident tid (hj ▸ hc)
    · exact (h.fresh j ident tid ((hchild j ident tid hj).1 hc)).trans_le hnext
  · rw [hprocs] at hg
    split_ifs at hg with hj
    · exact (hgroup g hg).2
    · exact (h.ident j g hg).trans_le hnext

/-! ### Creation -/

theorem GroupsOk.newProcess (h : GroupsOk s) : GroupsOk s.newProcess.2 := by
  refine @replace s _ h s.processes.alloc.1 (some ⟨s.nextIdent, [], 0⟩)
    (fun j ident tid _ => Iff.rfl) (fun j => get_set_alloc _ _) (le_succ _)
    (fun g hg => ?_) fun ident tid hc => (h.fresh _ ident tid hc).trans (lt_succ_self _)
  cases hg
  refine ⟨⟨List.nodup_nil, fun tid => ?_, rfl⟩, lt_succ_self _⟩
  -- nobody is a child of a process that did not exist
  exact iff_of_false List.not_mem_nil fun hc => absurd (h.fresh _ _ tid hc) (Nat.lt_irrefl _)

theorem GroupsOk.addNewChildThread (h : GroupsOk s) {thread : Thread}
    (hs : s.addNewChildThread thread pid = .ok (tid, s')) : GroupsOk s' := by
  obtain ⟨parent, hparent, rfl, hget, hsame, hprocs⟩ := addNewChildThread_ok hs
  have hnext : s'.nextIdent = s.nextIdent := by rw [hsame]
  have hchild : ∀ j ident i, s'.Child j ident i ↔
      (i = s.threads.alloc.1 ∧ j = pid ∧ ident = parent.ident) ∨ s.Child j ident i := by
    intro j ident i
    unfold Child
    rw [hget]
    split_ifs with hi
    · rw [hi, get_alloc_free]
      simp [eq_comm]
    · simp [hi]
  have hok := h.group pid parent hparent
  refine h.replace (fun j ident i hj => by simp [hchild, hj]) hprocs (by rw [hnext])
    (fun g hg => ?_) fun ident i hc => ?_
  · cases hg
    have hperm := perm_set_alloc parent.threads s.threads.alloc.1
    refine ⟨⟨hperm.nodup_iff.2 (List.nodup_cons.2 ⟨fun hmem => ?_, hok.nodup⟩), fun i => ?_, ?_⟩,
      by rw [hnext]; exact h.ident pid parent hparent⟩
    · obtain ⟨th, hth, -⟩ := (hok.mem_iff _).1 hmem
      rw [get_alloc_free] at hth
      cases hth
    · rw [hperm.mem_iff, List.mem_cons, hok.mem_iff, hchild]
      simp
    · rw [hperm.length_eq, List.length_cons, hok.count]
      rfl
  · rw [hnext]
    rcases (hchild pid ident i).1 hc with ⟨-, -, rfl⟩ | hc
    · exact h.ident pid parent hparent
    · exact h.fresh pid ident i hc

theorem GroupsOk.startThread (h : GroupsOk s) {thread : Thread} (hparent : thread.parent = none) :
    GroupsOk (s.startThread thread).2 := by
  refine h.congr (fun j ident i => ?_) (fun j => rfl) le_rfl
  have hget : get (s.startThread thread).2.threads i =
      if i = s.threads.alloc.1 then some thread else get s.threads i :=
    get_set_alloc _ _
  unfold Child
  rw [hget]
  split_ifs with hi
  · rw [hi, get_alloc_free]
    simp [hparent]
  · rfl

theorem GroupsOk.createThread (h : GroupsOk s) (state : ThreadState) :
    GroupsOk (s.createThread state).2 :=
  h.congr (fun _ _ _ => Iff.rfl) (fun _ => rfl) (le_succ _)

theorem GroupsOk.schedule (h : GroupsOk s) {cpu : ℕ} {cur next : Option ℕ}
    (hs : s.schedule cpu cur next = .ok s') : GroupsOk s' := by
  obtain ⟨hget, hsame, -⟩ := schedule_ok hs
  refine h.congr (fun j ident i => ?_) (fun j => by rw [hsame]) (by rw [hsame])
  unfold Child
  rw [hget]
  cases get s.threads i with
  | none => simp
  | some th =>
    simp only [map_some, Option.some.injEq, exists_eq_left']
    split_ifs <;> rfl

/-! ### The end of threads and processes -/

theorem GroupsOk.killLone (h : GroupsOk s)
    (hlone : ∀ pid group, get s.processes pid = some group → ¬ s.Child pid group.ident tid)
    (hs : s.killThreadSync tid = .ok s') : GroupsOk s' := by
  obtain ⟨thread, hthread, hget, hsame, ⟨hparent, hprocs⟩ | ⟨pid, parent, hparent, hpid, -⟩⟩ :=
    killThreadSync_ok hs
  · refine h.congr (fun j ident i => ?_) (fun j => by rw [hprocs]) (by rw [hsame])
    unfold Child
    rw [hget]
    split_ifs with hi
    · rw [hi, hthread]
      simp [hparent]
    · rfl
  · exact absurd ⟨thread, hthread, hparent⟩ (hlone pid parent hpid)

/-- Killing threads of a process removes these, and changes no other process. -/
theorem killAll_ok {tids : List ℕ} (hgroup : get s.processes pid = some group)
    (hnodup : tids.Nodup) (hchild : ∀ tid ∈ tids, s.Child pid group.ident tid)
    (hs : tids.foldlM killThreadSync s = .ok s') :
    (∀ i, get s'.threads i = if i ∈ tids then none else get s.threads i) ∧
    s'.nextIdent = s.nextIdent ∧ (∃ g, get s'.processes pid = some g) ∧
    ∀ j, j ≠ pid → get s'.processes j = get s.processes j := by
  induction tids generalizing s group with
  | nil =>
    cases hs
    exact ⟨fun i => by simp, rfl, ⟨group, hgroup⟩, fun j _ => rfl⟩
  | cons tid tids ih =>
    obtain ⟨s1, hkill, hs⟩ := bind_eq_ok.1 hs
    obtain ⟨hnot, hnodup⟩ := List.nodup_cons.1 hnodup
    obtain ⟨thread, hthread, hget, hsame, hprocs⟩ := killThreadSync_ok hkill
    obtain ⟨thread', hthread', hparent'⟩ := hchild tid List.mem_cons_self
    cases hthread.symm.trans hthread'
    rcases hprocs with ⟨hparent, -⟩ | ⟨pid', parent, hparent, hpid', hprocs⟩
    · rw [hparent] at hparent'
      cases hparent'
    · -- the process of the thread is this one
      obtain ⟨rfl, hident⟩ : pid' = pid ∧ parent.ident = group.ident := by
        rw [hparent] at hparent'
        simpa using hparent'
      have hgroup1 := (hprocs pid').trans (if_pos rfl)
      obtain ⟨hget', hnext', hlive, hothers⟩ := ih hgroup1 hnodup (fun i hi => by
        obtain ⟨th, hth, hp⟩ := hchild i (List.mem_cons_of_mem _ hi)
        have hne : i ≠ tid := fun heq => hnot (heq ▸ hi)
        refine ⟨th, by rw [hget, if_neg hne, hth], ?_⟩
        rw [hp, ← hident]) hs
      refine ⟨fun i => ?_, hnext'.trans (by rw [hsame]), hlive, fun j hj => ?_⟩
      · rw [hget', hget]
        by_cases hi : i = tid
        · simp [hi]
        · simp [hi]
      · rw [hothers j hj, hprocs, if_neg hj]

theorem GroupsOk.urmKillProcess (h : GroupsOk s) (hs : s.urmKillProcess pid = .ok s') :
    GroupsOk s' := by
  unfold Sched.urmKillProcess at hs
  split at hs
  · cases hs
  · rename_i group hgroup
    obtain ⟨s1, hkill, hs⟩ := bind_eq_ok.1 hs
    cases hs
    have hok := h.group pid group hgroup
    obtain ⟨hget, hnext, ⟨g, hg⟩, hothers⟩ := killAll_ok hgroup hok.nodup
      (fun tid htid => (hok.mem_iff tid).1 htid) hkill
    have hchild : ∀ j ident i, s1.Child j ident i → s.Child j ident i := by
      rintro j ident i ⟨th, hth, hp⟩
      rw [hget] at hth
      split_ifs at hth
      exact ⟨th, hth, hp⟩
    refine @replace s _ h pid none (fun j ident i hj => ⟨hchild j ident i, ?_⟩)
      (fun j => ?_) (Nat.le_of_eq hnext.symm) (fun g hg => by cases hg) fun ident i hc => ?_
    · rintro ⟨th, hth, hp⟩
      refine ⟨th, ?_, hp⟩
      refine (hget i).trans ((if_neg fun hi => ?_).trans hth)
      -- the threads that were killed are those of another process
      exact hj (Child.pid_unique ⟨th, hth, hp⟩ ((hok.mem_iff i).1 hi))
    · refine (get_set (lt_length hg) none).trans ?_
      split_ifs with hj
      · rfl
      · exact hothers j hj
    · exact (h.fresh pid ident i (hchild pid ident i hc)).trans_le (Nat.le_of_eq hnext.symm)

/-- The first `n` slots were cleared, and their threads removed. -/
structure Cleared (s : Sched) (group : ThreadGroup) (n : ℕ) (p : Sched × ThreadGroup) : Prop where
  removed : ∀ i j, j < n → get group.threads j = some i → get p.1.threads i = none
  kept : ∀ i, (∀ j, j < n → get group.threads j ≠ some i) → get p.1.threads i = get s.threads i
  slots : ∀ j, get p.2.threads j = if j < n then none else get group.threads j
  ident : p.2.ident = group.ident
  count : p.2.childThreadCount - p.2.threads.reduceOption.length =
    group.childThreadCount - group.threads.reduceOption.length
  same : p.1 = { s with threads := p.1.threads }

theorem Cleared.succ {n : ℕ} {p : Sched × ThreadGroup} (h : Cleared s group n p) :
    Cleared s group (n + 1) (clearThread p n) := by
  have hslot := h.slots n
  rw [if_neg (Nat.lt_irrefl n)] at hslot
  have hslots : ∀ t : Slots ℕ, (∀ j, get t j = if j = n then none else get p.2.threads j) →
      ∀ j, get t j = if j < n + 1 then none else get group.threads j := fun t ht j => by
    rw [ht, h.slots]
    split_ifs <;> first | rfl | omega
  unfold clearThread
  cases htid : get p.2.threads n with
  | none =>
    rw [htid] at hslot
    refine ⟨fun i j hj hi => ?_, fun i hi => h.kept i fun j hj => hi j (lt_succ_of_lt hj),
      hslots _ fun j => ?_, h.ident, h.count, h.same⟩
    · rcases Nat.lt_succ_iff_lt_or_eq.1 hj with hj | rfl
      · exact h.removed i j hj hi
      · rw [← hslot] at hi
        cases hi
    · split_ifs with hj
      · rw [hj, htid]
      · rfl
  | some tid =>
    rw [htid] at hslot
    have hget : ∀ i, get (p.1.setThread tid none).threads i =
        if i = tid then none else get p.1.threads i := fun i => get_set_none
    refine ⟨fun i j hj hi => ?_, fun i hi => ?_, hslots _ fun j => get_set_none, h.ident, ?_,
      by rw [h.same]; rfl⟩
    · dsimp only
      rw [hget]
      rcases Nat.lt_succ_iff_lt_or_eq.1 hj with hj | rfl
      · rw [h.removed i j hj hi, ite_self]
      · rw [← hslot] at hi
        rw [if_pos (Option.some.inj hi).symm]
    · dsimp only
      have hne : i ≠ tid := fun heq => hi n (lt_succ_self n) (heq ▸ hslot.symm)
      rw [hget, if_neg hne]
      exact h.kept i fun j hj => hi j (lt_succ_of_lt hj)
    · -- the slot that is cleared was counted
      have hlen := (perm_set (lt_length htid) none).length_eq
      rw [htid] at hlen
      simp only [toList_some, toList_none, List.nil_append, List.singleton_append,
        List.length_cons] at hlen
      rw [← h.count]
      dsimp only
      omega

theorem cleared_range (s : Sched) (group : ThreadGroup) (n : ℕ) :
    Cleared s group n ((List.range n).foldl clearThread (s, group)) := by
  induction n with
  | zero =>
    exact ⟨fun i j hj => absurd hj (Nat.not_lt_zero j), fun i _ => rfl, fun j => rfl, rfl, rfl, rfl⟩
  | succ n ih =>
    rw [List.range_succ, List.foldl_append]
    exact ih.succ

theorem GroupsOk.urmExecve (h : GroupsOk s) (hs : s.urmExecve pid = .ok s') : GroupsOk s' := by
  unfold Sched.urmExecve at hs
  split at hs
  · cases hs
  · rename_i group hgroup
    have hok := h.group pid group hgroup
    have hcl := cleared_range s group group.threads.length
    revert hs hcl
    generalize (List.range group.threads.length).foldl clearThread (s, group) = p
    intro hs hcl
    obtain ⟨⟨tid, s2⟩, hadd, hs⟩ := bind_eq_ok.1 hs
    cases hs
    have hchild : ∀ j ident i, p.1.Child j ident i →
        s.Child j ident i ∧ ¬ s.Child pid group.ident i := by
      rintro j ident i ⟨th, hth, hp⟩
      have hmem : ¬ s.Child pid group.ident i := fun hc => by
        obtain ⟨k, hk⟩ := mem_reduceOption.1 ((hok.mem_iff i).2 hc)
        rw [hcl.removed i k (lt_length hk) hk] at hth
        cases hth
      refine ⟨⟨th, ?_, hp⟩, hmem⟩
      rw [← hcl.kept i fun k _ hk => hmem ((hok.mem_iff i).1 (mem_reduceOption.2 ⟨k, hk⟩)), hth]
    have hempty : p.2.threads.reduceOption = [] := by
      refine List.eq_nil_iff_forall_not_mem.2 fun i hi => ?_
      obtain ⟨k, hk⟩ := mem_reduceOption.1 hi
      rw [hcl.slots k] at hk
      split_ifs at hk with hlt
      exact hlt (lt_length hk)
    have hnext : p.1.nextIdent = s.nextIdent := by rw [hcl.same]
    have hprocs : p.1.processes = s.processes := by rw [hcl.same]
    have h1 : GroupsOk { p.1 with processes := p.1.processes.set pid (some p.2) } := by
      refine @replace s _ h pid (some p.2)
        (fun j ident i hj => ⟨fun hc => (hchild j ident i hc).1, ?_⟩) (fun j => ?_)
        (Nat.le_of_eq hnext.symm) (fun g hg => ?_) fun ident i hc => ?_
      · rintro ⟨th, hth, hp⟩
        refine ⟨th, (hcl.kept i fun k _ hk => hj ?_).trans hth, hp⟩
        exact Child.pid_unique ⟨th, hth, hp⟩ ((hok.mem_iff i).1 (mem_reduceOption.2 ⟨k, hk⟩))
      · dsimp only
        rw [hprocs]
        exact get_set (lt_length hgroup) _
      · cases hg
        refine ⟨⟨by rw [hempty]; exact List.nodup_nil, fun i => ?_, ?_⟩, ?_⟩
        · rw [hempty]
          rw [hcl.ident]
          refine iff_of_false List.not_mem_nil fun hc => ?_
          exact absurd (hchild pid group.ident i hc).1 (hchild pid group.ident i hc).2
        · have hcount := hcl.count
          have hcount0 := hok.count
          omega
        · dsimp only
          rw [hcl.ident, hnext]
          exact h.ident pid group hgroup
      · exact (h.fresh pid ident i (hchild pid ident i hc).1).trans_le (Nat.le_of_eq hnext.symm)
    exact (h1.createThread .ready).addNewChildThread hadd

/-! ### Runs -/

/-- What happens to processes and threads. -/
inductive GroupOp where
  | newProcess
  | create (pid : ℕ)
  /-- A new thread without a process. -/
  | start
  | kill (tid : ℕ)
  | execve (pid : ℕ)
  | killProcess (pid : ℕ)
  | schedule (cpu : ℕ) (cur next : Option ℕ)

/-- The operations. -/
def execGroup (s : Sched) : GroupOp → Except SchedHalt Sched
  | .newProcess => .ok s.newProcess.2
  | .create pid => do
    let (thread, s) := s.createThread .ready
    let (_, s) ← s.addNewChildThread thread pid
    .ok s
  | .start =>
    let (thread, s) := s.createThread .blocked
    .ok (s.startThread thread).2
  | .kill tid => s.killThreadSync tid
  | .execve pid => s.urmExecve pid
  | .killProcess pid => s.urmKillProcess pid
  | .schedule cpu cur next => s.schedule cpu cur next

/-- A thread that is killed alone has no live process. -/
def LoneKill (s : Sched) : GroupOp → Prop
  | .kill tid => ∀ pid group, get s.processes pid = some group → ¬ s.Child pid group.ident tid
  | _ => True

/-- An operation that kills no thread of a process alone. -/
def GroupStep (s : Sched) (op : GroupOp) (s' : Sched) : Prop :=
  s.LoneKill op ∧ s.execGroup op = .ok s'

theorem GroupsOk.exec (h : GroupsOk s) {op : GroupOp} (hlone : s.LoneKill op)
    (hs : s.execGroup op = .ok s') : GroupsOk s' := by
  cases op with
  | newProcess =>
    cases hs
    exact h.newProcess
  | create pid =>
    obtain ⟨⟨tid, s1⟩, hadd, hs⟩ := bind_eq_ok.1 hs
    cases hs
    exact (h.createThread .ready).addNewChildThread hadd
  | start =>
    cases hs
    exact (h.createThread .blocked).startThread rfl
  | kill tid => exact h.killLone hlone hs
  | execve pid => exact h.urmExecve hs
  | killProcess pid => exact h.urmKillProcess hs
  | schedule cpu cur next => exact h.schedule hs

/-- **The lists of threads are right**, in every run in which no thread of a process is killed
alone.  When `urm_kill_process` comes to a thread, this is a live thread of its process. -/
theorem groups_exact {ops : List GroupOp} (hrun : Run GroupStep init ops s) {pid : ℕ}
    {group : ThreadGroup} (hgroup : get s.processes pid = some group) :
    GroupOk s pid group ∧
    ∀ killed tid rest s', group.threads.reduceOption = killed ++ tid :: rest →
      killed.foldlM killThreadSync s = .ok s' → s'.Child pid group.ident tid := by
  have hinv := hrun.invariant (I := GroupsOk) groupsOk_init fun s op s' h ⟨hlone, hexec⟩ =>
    h.exec hlone hexec
  have hok := hinv.group pid group hgroup
  refine ⟨hok, fun killed tid rest s' hsplit hkill => ?_⟩
  have hnodup := hok.nodup
  rw [hsplit, List.nodup_append] at hnodup
  have hmem : ∀ i ∈ killed ++ tid :: rest, s.Child pid group.ident i := fun i hi =>
    (hok.mem_iff i).1 (hsplit ▸ hi)
  obtain ⟨hget, -⟩ := killAll_ok hgroup hnodup.1
    (fun i hi => hmem i (List.mem_append_left _ hi)) hkill
  obtain ⟨th, hth, hp⟩ := hmem tid (List.mem_append_right _ List.mem_cons_self)
  refine ⟨th, ?_, hp⟩
  rw [hget, if_neg fun hin => hnodup.2.2 tid hin tid List.mem_cons_self rfl, hth]

instance (s : Sched) (pid ident tid : ℕ) : Decidable (s.Child pid ident tid) :=
  decidable_of_iff ((get s.threads tid).bind (·.parent) = some (pid, ident))
    bind_eq_some_iff

instance (s : Sched) : (op : GroupOp) → Decidable (s.LoneKill op)
  | .kill tid =>
    decidable_of_iff (∀ pid < s.processes.length, ∀ group ∈ get s.processes pid,
        ¬ s.Child pid group.ident tid)
      ⟨fun h pid group hgroup => h pid (lt_length hgroup) group hgroup,
        fun h pid _ group hgroup => h pid group hgroup⟩
  | .newProcess | .create _ | .start | .execve _ | .killProcess _ | .schedule _ _ _ =>
    isTrue trivial

/-- Two processes with a thread each; the first gets another executable. -/
def twoProcesses : List GroupOp := [.newProcess, .create 0, .newProcess, .create 1, .execve 0]

/-- The list of the first process is right. -/
theorem groups_exact_twoProcesses : ∃ s group, Run GroupStep init twoProcesses s ∧
    get s.processes 0 = some group ∧ GroupOk s 0 group ∧
    ∀ killed tid rest s', group.threads.reduceOption = killed ++ tid :: rest →
      killed.foldlM killThreadSync s = .ok s' → s'.Child 0 group.ident tid := by
  obtain ⟨s, hrun, hlive⟩ : ∃ s, Run GroupStep init twoProcesses s ∧ (get s.processes 0).isSome :=
    Run.exists_of_exec (P := LoneKill) (f := execGroup)
      (q := fun s => (get s.processes 0).isSome) (by decide +kernel)
  obtain ⟨group, hgroup⟩ := isSome_iff_exists.1 hlive
  exact ⟨s, group, hrun, hgroup, groups_exact hrun hgroup⟩

/-- **A thread exits, and the end of its process ends a thread of another process**, which has got
its number. -/
theorem killed_elsewhere :
    (List.foldlM execGroup init
        [.newProcess, .create 0, .schedule 0 none (some 0), .kill 0]).toOption.map
      (fun s => ((get s.processes 0).map fun g => (g.threads.reduceOption, g.childThreadCount),
        get s.threads 0)) = some (some ([0], 0), none) ∧
    (List.foldlM execGroup init [.newProcess, .create 0, .schedule 0 none (some 0), .kill 0,
        .newProcess, .create 1, .schedule 0 none (some 0), .killProcess 0]).toOption.map
      (fun s => ((get s.processes 1).map fun g => g.threads.reduceOption,
        get s.threads 0)) = some (some [0], none) := by
  decide +kernel

end Sched

end DripOS
