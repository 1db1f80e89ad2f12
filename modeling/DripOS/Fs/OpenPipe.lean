import DripOS.Fs.PipeTable

/-!
# What `syscall_open_pipe` changes

The pipe is put into a slot of a child that the caller names, and into a new slot of the caller.  A
call that names no child, or no slot of it, is to fail and to change nothing.

* The test for the parent sets an error code and goes on.
* The number of processes passes the test of the pid, and a pid without a process is not tested for.
* A negative slot passes the test, and the last slot of the table does not.
* If the caller has no free slot, its table is freed.

`PipeSys.opensExactly_iff` : **which calls do what they are to do.**
-/

namespace DripOS

open Slots

/-- The number is an index of the table of the process. -/
def FdProcess.HasIndex (p : FdProcess) (fd : ℤ) : Prop := 0 ≤ fd ∧ fd < p.fdTable.length

namespace PipeSys

variable {k k' : PipeSys} {cur newFd : ℕ} {pid remoteFd rdx : ℤ} {p : FdProcess}

/-- The process with this pid. -/
def Live (k : PipeSys) (pid : ℤ) (p : FdProcess) : Prop :=
  0 ≤ pid ∧ get k.processes pid.toNat = some p

/-- A free slot of the caller, which is not the one that the call names. -/
def FreeSlot (k : PipeSys) (cur : ℕ) (pid remoteFd : ℤ) (newFd : ℕ) : Prop :=
  ∃ c, get k.processes cur = some c ∧ c.freed = false ∧ c.fdTable[newFd]? = some none ∧
    (cur = pid.toNat → newFd ≠ remoteFd.toNat)

/-- The slot of the child, a new slot of the caller and a new pipe, and nothing else. -/
structure Opened (k : PipeSys) (cur : ℕ) (pid remoteFd rdx : ℤ) (newFd : ℕ) (k' : PipeSys) :
    Prop where
  remote : ∃ p, k.Live pid p ∧ p.freed = false ∧ p.HasIndex remoteFd
  own : k.FreeSlot cur pid remoteFd newFd
  changed : k' = ((k.setFd pid.toNat remoteFd.toNat (some .pipe)).setFd cur newFd
    (some .pipe)).createPipe newFd remoteFd cur pid.toNat rdx

/-- What the call is to do. -/
structure OpensExactly (k : PipeSys) (cur : ℕ) (pid remoteFd rdx : ℤ) : Prop where
  opens : (∃ p, k.Live pid p ∧ p.ppid = cur ∧ p.HasIndex remoteFd) →
    ∃ (newFd : ℕ) (k' : PipeSys), k.syscallOpenPipe cur pid remoteFd rdx = .ok (newFd, k') ∧
      k.Opened cur pid remoteFd rdx newFd k'
  rejects : (¬ ∃ p, k.Live pid p ∧ p.ppid = cur ∧ p.HasIndex remoteFd) →
    ∃ err : Errno, k.syscallOpenPipe cur pid remoteFd rdx = .ok (-err.code, k)

/-! ### The call in its cases -/

theorem syscallOpenPipe_of_range (h : pid < 0 ∨ pid > k.processes.length) :
    k.syscallOpenPipe cur pid remoteFd rdx = .ok (-Errno.einval.code, k) := by
  rw [syscallOpenPipe, if_pos h]
  rfl

/-- A call for a process looks at the size of its table first, and then at the table. -/
theorem syscallOpenPipe_live (hp : k.Live pid p) :
    k.syscallOpenPipe cur pid remoteFd rdx =
      if remoteFd < (p.fdTable.length : ℤ) - 1 then
        if p.freed then .error .freed
        else if remoteFd < 0 then .error .outOfBounds
        else do
          let newPipeFd ← (k.setFd pid.toNat remoteFd.toNat (some .pipe)).fdNew .pipe cur
          pure (newPipeFd.1, newPipeFd.2.createPipe newPipeFd.1 remoteFd cur pid.toNat
            (if p.ppid ≠ cur then -(Errno.eperm.code : ℤ) else rdx))
      else .ok (-Errno.ebadf.code, k) := by
  obtain ⟨hpos, hget⟩ := hp
  have hlt := lt_length hget
  have hprocess : k.process pid.toNat = .ok p := by rw [process, hget]
  rw [syscallOpenPipe, if_neg (by omega), if_neg (by omega), hprocess, ok_bind, openRemote,
    hprocess, ok_bind, table, hprocess, ok_bind]
  split_ifs
  all_goals rfl

/-- A call that returns has looked at a process, or its pid is beyond the table. -/
theorem live_of_syscallOpenPipe {r : ℤ × PipeSys}
    (h : k.syscallOpenPipe cur pid remoteFd rdx = .ok r) :
    (pid < 0 ∨ pid > k.processes.length) ∨ ∃ p, k.Live pid p := by
  rw [syscallOpenPipe] at h
  split_ifs at h with hrange hlen
  · exact Or.inl hrange
  · right
    obtain ⟨p, hp, -⟩ := bind_eq_ok.1 h
    rw [process] at hp
    split at hp
    · rename_i hget
      cases hp
      exact ⟨p, by omega, hget⟩
    · cases hp

/-! ### The new slot -/

theorem get_setFd {pid i q : ℕ} {entry : Option FileNode}
    (hp : get k.processes pid = some p) :
    get (k.setFd pid i entry).processes q =
      if q = pid then some { p with fdTable := p.fdTable.set i entry }
      else get k.processes q := by
  rw [setFd, hp]
  exact get_set (lt_length hp) _

theorem fdNew_pipes {node : FileNode} {r : ℕ × PipeSys} (h : k.fdNew node cur = .ok r) :
    r.2.pipes = k.pipes := by
  obtain ⟨t, -, h⟩ := bind_eq_ok.1 h
  split at h
  · cases h
    exact setFd_pipes
  · cases h
    rw [growFds]
    split <;> rfl

theorem getElem?_setFd {pid fd : ℕ} {c : FdProcess} (hp : get k.processes pid = some p)
    (hc : get k.processes cur = some c) :
    ∃ c', get (k.setFd pid fd (some .pipe)).processes cur = some c' ∧ c'.freed = c.freed ∧
      ∀ i, c'.fdTable[i]? = some none ↔ c.fdTable[i]? = some none ∧ (cur = pid → i ≠ fd) := by
  rw [get_setFd hp]
  by_cases hcur : cur = pid
  · subst hcur
    obtain rfl : p = c := Option.some.inj (hp.symm.trans hc)
    refine ⟨_, if_pos rfl, rfl, fun i => ?_⟩
    rw [List.getElem?_set]
    by_cases hi : fd = i
    · subst hi
      simp
    · simp [hi, Ne.symm hi]
  · refine ⟨c, (if_neg hcur).trans hc, rfl, fun i => ?_⟩
    simp [hcur]

/-- The first free slot of the caller is taken. -/
theorem fdNew_of_freeSlot (hp : k.Live pid p) (h : k.FreeSlot cur pid remoteFd newFd) :
    ∃ i, (k.setFd pid.toNat remoteFd.toNat (some .pipe)).fdNew .pipe cur =
        .ok (i, (k.setFd pid.toNat remoteFd.toNat (some .pipe)).setFd cur i (some .pipe)) ∧
      k.FreeSlot cur pid remoteFd i := by
  obtain ⟨c, hc, hfreed, hfree⟩ := h
  obtain ⟨c', hc', hfreed', hslots⟩ := @getElem?_setFd k cur p _ remoteFd.toNat c hp.2 hc
  have htable : (k.setFd pid.toNat remoteFd.toNat (some .pipe)).table cur = .ok c'.fdTable := by
    rw [table, process, hc', ok_bind, hfreed', hfreed]
    rfl
  have hmem : none ∈ c'.fdTable := List.mem_of_getElem? ((hslots newFd).2 hfree)
  cases hidx : c'.fdTable.findIdx? Option.isNone with
  | none => exact absurd (List.findIdx?_eq_none_iff.1 hidx none hmem) (by simp)
  | some i =>
    obtain ⟨hi, hnone, -⟩ := List.findIdx?_eq_some_iff_getElem.1 hidx
    have hget : c'.fdTable[i]? = some none :=
      (List.getElem?_eq_getElem hi).trans (congrArg some (Option.isNone_iff_eq_none.1 hnone))
    refine ⟨i, ?_, c, hc, hfreed, (hslots i).1 hget⟩
    rw [fdNew, htable, ok_bind, hidx]
    rfl

/-! ### The calls that do what they are to do -/

/-- A call that names a slot before the last one makes a pipe, in a table that was not freed. -/
theorem pipes_ne_of_syscallOpenPipe {r : ℤ × PipeSys} (hp : k.Live pid p)
    (hlt : remoteFd < (p.fdTable.length : ℤ) - 1)
    (h : k.syscallOpenPipe cur pid remoteFd rdx = .ok r) :
    p.freed = false ∧ r.2.pipes ≠ k.pipes := by
  rw [syscallOpenPipe_live hp, if_pos hlt] at h
  split_ifs at h with hfreed
  all_goals
    obtain ⟨newPipeFd, hnew, h⟩ := bind_eq_ok.1 h
    cases h
    exact ⟨Bool.not_eq_true _ ▸ hfreed, by simp [createPipe, fdNew_pipes hnew]⟩

theorem OpensExactly.exists_ok (h : k.OpensExactly cur pid remoteFd rdx) :
    ∃ r, k.syscallOpenPipe cur pid remoteFd rdx = .ok r := by
  by_cases hchild : ∃ p, k.Live pid p ∧ p.ppid = cur ∧ p.HasIndex remoteFd
  · obtain ⟨newFd, k', hk', -⟩ := h.opens hchild
    exact ⟨_, hk'⟩
  · obtain ⟨err, herr⟩ := h.rejects hchild
    exact ⟨_, herr⟩

/-- **A call does what it is to do exactly if** its pid is beyond the process table; or it names a
process and a slot from the last one on, but not the last slot of a child; or a slot before the last
one of a child whose table is there, while the caller has a free slot. -/
theorem opensExactly_iff (k : PipeSys) (cur : ℕ) (pid remoteFd rdx : ℤ) :
    k.OpensExactly cur pid remoteFd rdx ↔
      (pid < 0 ∨ pid > k.processes.length) ∨
      ∃ p, k.Live pid p ∧
        ((p.fdTable.length : ℤ) - 1 ≤ remoteFd ∧ ¬ (p.ppid = cur ∧ p.HasIndex remoteFd) ∨
          p.freed = false ∧ p.ppid = cur ∧ 0 ≤ remoteFd ∧ remoteFd < (p.fdTable.length : ℤ) - 1 ∧
            ∃ newFd, k.FreeSlot cur pid remoteFd newFd) := by
  constructor
  · intro h
    obtain ⟨r, hr⟩ := h.exists_ok
    refine (live_of_syscallOpenPipe hr).imp_right fun ⟨p, hp⟩ => ⟨p, hp, ?_⟩
    rcases Int.lt_or_le remoteFd ((p.fdTable.length : ℤ) - 1) with hlt | hle
    · right
      obtain ⟨hfreed, hmade⟩ := pipes_ne_of_syscallOpenPipe hp hlt hr
      -- a call that makes a pipe is not to be rejected
      have hchild : ∃ p, k.Live pid p ∧ p.ppid = cur ∧ p.HasIndex remoteFd := by
        by_contra hno
        obtain ⟨err, herr⟩ := h.rejects hno
        obtain rfl := Except.ok.inj (hr.symm.trans herr)
        exact hmade rfl
      obtain ⟨newFd, k', -, hopened⟩ := h.opens hchild
      obtain ⟨p', hp', hppid, hindex⟩ := hchild
      obtain rfl : p' = p := Option.some.inj (hp'.2.symm.trans hp.2)
      exact ⟨hfreed, hppid, hindex.1, hlt, newFd, hopened.own⟩
    · refine Or.inl ⟨hle, fun ⟨hppid, hindex⟩ => ?_⟩
      obtain ⟨newFd, k', hk', -⟩ := h.opens ⟨p, hp, hppid, hindex⟩
      rw [syscallOpenPipe_live hp, if_neg (Int.not_lt.2 hle)] at hk'
      -- the error code is not a descriptor
      cases hk'
  · rintro (hrange | ⟨p, hp, ⟨hle, hno⟩ | ⟨hfreed, hppid, hpos, hlt, newFd, hfree⟩⟩)
    · refine ⟨fun ⟨p, hp, _⟩ => ?_, fun _ => ⟨.einval, syscallOpenPipe_of_range hrange⟩⟩
      have hlt := lt_length hp.2
      have hpos := hp.1
      omega
    · refine ⟨fun ⟨p', hp', hchild⟩ => ?_, fun _ => ⟨.ebadf, ?_⟩⟩
      · obtain rfl : p' = p := Option.some.inj (hp'.2.symm.trans hp.2)
        exact absurd hchild hno
      · rw [syscallOpenPipe_live hp, if_neg (Int.not_lt.2 hle)]
    · have hindex : p.HasIndex remoteFd := ⟨hpos, by omega⟩
      refine ⟨fun _ => ?_, fun hno => absurd ⟨p, hp, hppid, hindex⟩ hno⟩
      obtain ⟨i, hnew, hslot⟩ := fdNew_of_freeSlot hp hfree
      refine ⟨i, _, ?_, ⟨p, hp, hfreed, hindex⟩, hslot, rfl⟩
      rw [syscallOpenPipe_live hp, if_pos hlt, if_neg (by rw [hfreed]; decide),
        if_neg (Int.not_lt.2 hpos), hnew, ok_bind, if_neg (not_not.2 hppid)]
      rfl

/-- Process 0 with its child 1 and the child 2 of the latter. -/
def threeProcesses : PipeSys :=
  ⟨[some ⟨0, List.replicate 10 none, false⟩, some ⟨0, List.replicate 10 none, false⟩,
    some ⟨1, List.replicate 10 none, false⟩], []⟩

/-- Process 0 opens a pipe to process 2, which is not its child, and the last slot of its child is
refused; a negative slot is written before the table. -/
theorem not_opensExactly :
    (∃ k', threeProcesses.syscallOpenPipe 0 2 3 1 = .ok (0, k') ∧ k'.fileAt 2 3 = some .pipe) ∧
    threeProcesses.syscallOpenPipe 0 1 9 1 = .ok (-Errno.ebadf.code, threeProcesses) ∧
    threeProcesses.syscallOpenPipe 0 1 (-1) 1 = .error .outOfBounds ∧
    threeProcesses.syscallOpenPipe 0 3 0 1 = .error .outOfBounds ∧
    ¬ threeProcesses.OpensExactly 0 2 3 1 := by
  refine ⟨⟨_, rfl, by decide⟩, by rfl, by rfl, by rfl, fun h => ?_⟩
  have hno : ¬ ∃ p, threeProcesses.Live 2 p ∧ p.ppid = 0 ∧ p.HasIndex 3 := by
    rintro ⟨p, hp, hppid, -⟩
    obtain rfl := Option.some.inj hp.2
    exact absurd hppid (by decide)
  obtain ⟨err, herr⟩ := h.rejects hno
  have hpipes : some 1 = some 0 := congrArg (fun r => r.toOption.map fun r => r.2.pipes.length) herr
  cases hpipes

end PipeSys

end DripOS
