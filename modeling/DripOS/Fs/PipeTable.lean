import DripOS.Fs.CloneFds
import DripOS.Klibc.Errno
import DripOS.Lib.Outcome
import DripOS.Lib.Run

/-!
# The table of pipes

`create_pipe` and `lookup_pipe` of `src/fs/pipe.c`, `syscall_open_pipe` of `src/proc/syscalls.c`,
and the functions of `src/fs/fd.c` on descriptors.  A pipe is found by the process id and the number
of one of its ends.  Nothing removes a pipe, so an end that is used again leads to the first pipe.
A table that `fd_new` had to grow is freed while the process keeps it; an access to it stops the
model with `PipeSysHalt.freed`.

`PipeSys.lookup_newest` : in every run in which no end is used twice, no table has to grow and no
process with open pipes forks, `lookup_pipe` finds the newest pipe of every open descriptor.
-/

namespace DripOS

open Slots List

/-- The ways in which a call does not return. -/
inductive PipeSysHalt where
  /-- A null pointer is followed. -/
  | fault
  /-- An array is accessed outside its bounds. -/
  | outOfBounds
  /-- A freed table is accessed. -/
  | freed
  deriving DecidableEq, Repr

/-- The node of an entry: `&pipe_node`, or the node of another file. -/
inductive FileNode where
  | pipe
  | other
  deriving DecidableEq, Repr

/-- The fields of `process_t` that are used here. -/
structure FdProcess where
  ppid : ℕ
  fdTable : Slots FileNode
  /-- The table was freed by a growing `fd_new`. -/
  freed : Bool
  deriving DecidableEq, Repr

/-- The ends of a pipe, and its direction. -/
structure PipeEnds where
  creatorFd : ℤ
  creatorPid : ℕ
  targetPid : ℕ
  targetFd : ℤ
  direction : ℕ
  deriving DecidableEq, Repr

/-- The test of `lookup_pipe`. -/
def PipeEnds.IsEnd (p : PipeEnds) (pid : ℕ) (fd : ℤ) : Prop :=
  (fd = p.creatorFd ∧ pid = p.creatorPid) ∨ (fd = p.targetFd ∧ pid = p.targetPid)

instance (p : PipeEnds) (pid : ℕ) (fd : ℤ) : Decidable (p.IsEnd pid fd) :=
  inferInstanceAs (Decidable (_ ∨ _))

/-- The processes and the pipes. -/
structure PipeSys where
  processes : Slots FdProcess
  pipes : List PipeEnds
  deriving DecidableEq, Repr

namespace PipeSys

variable (k : PipeSys)

/-- No processes and no pipes. -/
def init : PipeSys := ⟨[], []⟩

/-- `processes[pid]`, which is used without a test. -/
def process (pid : ℕ) : Except PipeSysHalt FdProcess :=
  match get k.processes pid with
  | some p => .ok p
  | none => .error .fault

/-- `process->fd_table`. -/
def table (pid : ℕ) : Except PipeSysHalt (Slots FileNode) := do
  let p ← k.process pid
  if p.freed then .error .freed else pure p.fdTable

/-- Write an entry of the table of a process. -/
def setFd (pid i : ℕ) (entry : Option FileNode) : PipeSys :=
  match get k.processes pid with
  | some p => { k with
      processes := k.processes.set pid (some { p with fdTable := p.fdTable.set i entry }) }
  | none => k

/-- The growth of a table in `fd_new`, in a local variable. -/
def growFds (pid : ℕ) : PipeSys :=
  match get k.processes pid with
  | some p => { k with
      processes := k.processes.set pid
        (some { p with fdTable := p.fdTable ++ List.replicate 10 none, freed := true }) }
  | none => k

/-- `fd_new`. -/
def fdNew (node : FileNode) (pid : ℕ) : Except PipeSysHalt (ℕ × PipeSys) := do
  let fdTable ← k.table pid
  match fdTable.findIdx? Option.isNone with
  | some i => pure (i, k.setFd pid i (some node))
  | none => pure (fdTable.length, k.growFds pid)

/-- `fd_lookup_pid`. -/
def fdLookupPid (fd : ℤ) (pid : ℕ) : Except PipeSysHalt (Option FileNode) := do
  let fdTable ← k.table pid
  if fd < (fdTable.length : ℤ) - 1 ∧ fd ≥ 0 then pure (get fdTable fd.toNat) else pure none

/-- `fd_close`, in the process `cur`; `vfs_close` is a parameter. -/
def fdClose (closeOp : FileNode → ℤ → ℤ) (cur : ℕ) (fd : ℤ) : Except PipeSysHalt (ℤ × PipeSys) := do
  match ← k.fdLookupPid fd cur with
  | none => pure (-Errno.ebadf.code, k)
  | some node => pure (closeOp node fd, k.setFd cur fd.toNat none)

/-- `create_pipe`. -/
def createPipe (curFd remoteFd : ℤ) (cur otherPid : ℕ) (direction : ℤ) : PipeSys :=
  { k with pipes := k.pipes ++ [⟨curFd, cur, otherPid, remoteFd, (direction % 256).toNat⟩] }

/-- `lookup_pipe` in the process `cur`: the place of the pipe in `pipes`. -/
def lookupPipe (cur : ℕ) (fd : ℤ) : Option ℕ := k.pipes.findIdx? fun p => p.IsEnd cur fd

/-- `syscall_open_pipe` puts the pipe into the table of the other process. -/
def openRemote (pid : ℕ) (remoteFd : ℤ) : Except PipeSysHalt (Option PipeSys) := do
  let process ← k.process pid
  if remoteFd < (process.fdTable.length : ℤ) - 1 then do
    let _ ← k.table pid
    if remoteFd < 0 then .error .outOfBounds
    else pure (some (k.setFd pid remoteFd.toNat (some .pipe)))
  else pure none

/-- `syscall_open_pipe` in the process `cur`, with the result in `rdx`. -/
def syscallOpenPipe (cur : ℕ) (pid remoteFd rdx : ℤ) : Except PipeSysHalt (ℤ × PipeSys) := do
  -- the test lets the number after the last process pass
  if pid < 0 ∨ pid > k.processes.length then pure (-Errno.einval.code, k)
  else if pid = k.processes.length then .error .outOfBounds
  else do
    let process ← k.process pid.toNat
    -- the call goes on after the error
    let rdx := if process.ppid ≠ cur then -(Errno.eperm.code : ℤ) else rdx
    match ← k.openRemote pid.toNat remoteFd with
    | none => pure (-Errno.ebadf.code, k)
    | some k => do
      let newPipeFd ← k.fdNew .pipe cur
      pure (newPipeFd.1, newPipeFd.2.createPipe newPipeFd.1 remoteFd cur pid.toNat rdx)

/-- `create_process` and `add_new_pid`: a process without open files. -/
def createProcess (ppid : ℕ) (fdTable : Slots FileNode) : PipeSys :=
  { k with processes := k.processes.alloc.2.set k.processes.alloc.1 (some ⟨ppid, fdTable, false⟩) }

/-- The copy of an entry has its node. -/
def copyNode (_ : Unit) (node : FileNode) : Unit × FileNode := ((), node)

/-- The files in a `fork`. -/
def fork (cur : ℕ) : Except PipeSysHalt PipeSys := do
  let fdTable ← k.table cur
  pure (k.createProcess cur (cloneFds copyNode () fdTable).2)

/-- `clear_fds` and the end of `urm_kill_process`. -/
def exit (pid : ℕ) : Except PipeSysHalt PipeSys := do
  let _ ← k.table pid
  pure { k with processes := k.processes.set pid none }

/-! ### Runs -/

/-- The calls. -/
inductive Op where
  | openPipe (cur : ℕ) (pid remoteFd rdx : ℤ)
  | openFile (pid : ℕ)
  | close (cur : ℕ) (fd : ℤ)
  | create (ppid : ℕ)
  | fork (cur : ℕ)
  | exit (pid : ℕ)
  deriving DecidableEq, Repr

/-- One call. -/
def exec (closeOp : FileNode → ℤ → ℤ) : Op → Except PipeSysHalt PipeSys
  | .openPipe cur pid remoteFd rdx => (k.syscallOpenPipe cur pid remoteFd rdx).map Prod.snd
  | .openFile pid => (k.fdNew .other pid).map Prod.snd
  | .close cur fd => (k.fdClose closeOp cur fd).map Prod.snd
  | .create ppid => .ok (k.createProcess ppid (List.replicate 10 none))
  | .fork cur => k.fork cur
  | .exit pid => k.exit pid

/-- The slot that `fd_new` takes, if the table need not grow. -/
def freeFd (pid : ℕ) : Option ℕ :=
  match get k.processes pid with
  | some p => p.fdTable.findIdx? Option.isNone
  | none => none

/-- No end is used twice, no table has to grow, and no process with open pipes forks. -/
def Fresh : Op → Prop
  | .openPipe cur pid remoteFd _ =>
    match k.openRemote pid.toNat remoteFd with
    | .ok (some k₁) =>
      match k₁.freeFd cur with
      | some i => ∀ q ∈ k.pipes, ¬ q.IsEnd pid.toNat remoteFd ∧ ¬ q.IsEnd cur i
      | none => False
    | _ => True
  | .openFile pid => (k.freeFd pid).isSome
  | .fork cur =>
    match k.table cur with
    | .ok fdTable => FileNode.pipe ∉ fdTable.reduceOption
    | .error _ => True
  | _ => True

instance (op : Op) : Decidable (k.Fresh op) := by
  unfold Fresh
  split
  · split
    · split <;> infer_instance
    · infer_instance
  · infer_instance
  · split <;> infer_instance
  · infer_instance

/-- One call that meets the condition. -/
def PipeStep (closeOp : FileNode → ℤ → ℤ) (k : PipeSys) (op : Op) (k' : PipeSys) : Prop :=
  k.Fresh op ∧ k.exec closeOp op = .ok k'

/-- `lookup_pipe` finds the newest pipe of every open pipe descriptor. -/
def Newest : Prop :=
  ∀ pid fd, k.fdLookupPid fd pid = .ok (some .pipe) →
    ∃ i, k.lookupPipe pid fd = some i ∧ ∀ j q, k.pipes[j]? = some q → q.IsEnd pid fd → j ≤ i

/-! ### The entries of the tables -/

/-- The entry of a number, also in the last slot of a table. -/
def fileAt (pid fd : ℕ) : Option FileNode := (get k.processes pid).bind fun p => get p.fdTable fd

variable {k} {k' : PipeSys} {pid fd i cur : ℕ} {node : FileNode} {entry : Option FileNode}
  {fdTable : Slots FileNode} {remoteFd : ℤ} {r : ℤ × PipeSys}

theorem table_ok (h : k.table pid = .ok fdTable) :
    ∃ p, get k.processes pid = some p ∧ p.fdTable = fdTable := by
  obtain ⟨p, hp, hrest⟩ := bind_eq_ok.1 h
  unfold process at hp
  split at hp
  · rename_i p' hp'
    cases hp
    split_ifs at hrest
    exact ⟨p, hp', Except.ok.inj hrest⟩
  · cases hp

theorem fileAt_of_lookup {fd : ℤ} (h : k.fdLookupPid fd pid = .ok (some node)) :
    ∃ n : ℕ, fd = n ∧ k.fileAt pid n = some node := by
  obtain ⟨t, ht, hrest⟩ := bind_eq_ok.1 h
  obtain ⟨p, hp, rfl⟩ := table_ok ht
  split_ifs at hrest with hfd
  · refine ⟨fd.toNat, (Int.toNat_of_nonneg hfd.2).symm, ?_⟩
    rw [fileAt, hp]
    exact Except.ok.inj hrest
  · cases hrest

theorem fileAt_set_process {p : FdProcess} (hpid : pid < k.processes.length) (q : ℕ) :
    ({ k with processes := k.processes.set pid (some p) } : PipeSys).fileAt q fd =
      if q = pid then get p.fdTable fd else k.fileAt q fd := by
  unfold fileAt
  rw [get_set hpid]
  split_ifs <;> rfl

/-- A file that is open after a write was open before, or is the one written. -/
theorem fileAt_setFd {q : ℕ} (h : (k.setFd pid i entry).fileAt q fd = some node) :
    k.fileAt q fd = some node ∨ (q = pid ∧ fd = i ∧ entry = some node) := by
  unfold setFd at h
  split at h
  · rename_i p hp
    rw [fileAt_set_process (lt_length hp)] at h
    split_ifs at h with hq
    · subst hq
      have hold : k.fileAt q fd = get p.fdTable fd := by rw [fileAt, hp]; rfl
      rcases Nat.lt_or_ge i p.fdTable.length with hi | hi
      · rw [get_set hi] at h
        split_ifs at h with hfd
        · exact Or.inr ⟨rfl, hfd, h⟩
        · exact Or.inl (hold.trans h)
      · rw [set_eq_of_length_le hi] at h
        exact Or.inl (hold.trans h)
    · exact Or.inl h
  · exact Or.inl h

@[simp] theorem setFd_pipes : (k.setFd pid i entry).pipes = k.pipes := by
  unfold setFd
  split <;> rfl

theorem fileAt_createProcess {q ppid : ℕ}
    (h : (k.createProcess ppid fdTable).fileAt q fd = some node) :
    k.fileAt q fd = some node ∨ get fdTable fd = some node := by
  unfold createProcess fileAt at h
  rw [get_set_alloc] at h
  split_ifs at h
  · exact Or.inr h
  · exact Or.inl h

theorem mem_foldl_cloneFd {nodes : List FileNode} {r : Unit × Slots FileNode}
    (h : node ∈ (nodes.foldl (fun r a => cloneFd copyNode r (some a)) r).2.reduceOption) :
    node ∈ nodes ∨ node ∈ r.2.reduceOption := by
  induction nodes generalizing r with
  | nil => exact Or.inr h
  | cons node' nodes ih =>
    rcases ih h with hold | hnew
    · exact Or.inl (mem_cons_of_mem _ hold)
    · rcases mem_cons.1 ((perm_set_alloc r.2 node').mem_iff.1 hnew) with rfl | hnew
      · exact Or.inl mem_cons_self
      · exact Or.inr hnew

theorem mem_cloneFds (h : node ∈ (cloneFds copyNode () fdTable).2.reduceOption) :
    node ∈ fdTable.reduceOption := by
  rw [cloneFds_eq] at h
  refine (mem_foldl_cloneFd h).resolve_right fun hnew => ?_
  rw [newFdSlots, reduceOption_replicate_none] at hnew
  cases hnew

/-! ### The invariant -/

/-- Every pipe descriptor is the end of a pipe, and no two pipes share an end. -/
structure EndsOk (k : PipeSys) : Prop where
  known : ∀ pid fd, k.fileAt pid fd = some .pipe → ∃ q ∈ k.pipes, q.IsEnd pid fd
  apart : k.pipes.Pairwise fun q q' => ∀ pid fd, q.IsEnd pid fd → ¬ q'.IsEnd pid fd

theorem endsOk_init : init.EndsOk :=
  ⟨fun pid fd h => by simp [fileAt, init, Slots.get] at h, List.Pairwise.nil⟩

theorem EndsOk.mono (h : k.EndsOk) (hpipes : k'.pipes = k.pipes)
    (hfiles : ∀ pid fd, k'.fileAt pid fd = some .pipe → k.fileAt pid fd = some .pipe) :
    k'.EndsOk := by
  refine ⟨fun pid fd hfd => ?_, hpipes ▸ h.apart⟩
  rw [hpipes]
  exact h.known pid fd (hfiles pid fd hfd)

theorem EndsOk.newest (h : k.EndsOk) : k.Newest := by
  intro pid fd hfd
  obtain ⟨n, rfl, hfile⟩ := fileAt_of_lookup hfd
  obtain ⟨q, hq, hend⟩ := h.known pid n hfile
  cases hfound : k.lookupPipe pid n with
  | none => exact absurd hend (by simpa using List.findIdx?_eq_none_iff.1 hfound q hq)
  | some i =>
    obtain ⟨hi, hi', -⟩ := List.findIdx?_eq_some_iff_getElem.1 hfound
    refine ⟨i, rfl, fun j q' hj hend' => Nat.le_of_not_lt fun hij => ?_⟩
    obtain ⟨hj', rfl⟩ := List.getElem?_eq_some_iff.1 hj
    exact pairwise_iff_getElem.1 h.apart i j hi hj' hij pid n (by simpa using hi') hend'

/-- `syscall_open_pipe`, once both descriptors are there. -/
theorem EndsOk.openPipe {remoteFd : ℕ} {direction : ℤ} (h : k.EndsOk)
    (hremote : ∀ q ∈ k.pipes, ¬ q.IsEnd pid remoteFd) (hcur : ∀ q ∈ k.pipes, ¬ q.IsEnd cur i) :
    (((k.setFd pid remoteFd (some .pipe)).setFd cur i (some .pipe)).createPipe i remoteFd cur pid
      direction).EndsOk := by
  have hpipes : ((k.setFd pid remoteFd (some .pipe)).setFd cur i (some .pipe)).pipes = k.pipes := by
    rw [setFd_pipes, setFd_pipes]
  constructor
  · intro p fd hfd
    show ∃ q ∈ _ ++ _, _
    rw [hpipes]
    rcases fileAt_setFd hfd with hfd | ⟨rfl, rfl, -⟩
    · rcases fileAt_setFd hfd with hfd | ⟨rfl, rfl, -⟩
      · obtain ⟨q, hq, hend⟩ := h.known p fd hfd
        exact ⟨q, mem_append_left _ hq, hend⟩
      · exact ⟨_, mem_append_right _ mem_cons_self, Or.inr ⟨rfl, rfl⟩⟩
    · exact ⟨_, mem_append_right _ mem_cons_self, Or.inl ⟨rfl, rfl⟩⟩
  · show List.Pairwise _ (_ ++ _)
    rw [hpipes]
    refine pairwise_append.2 ⟨h.apart, pairwise_singleton _ _, fun q hq q' hq' => ?_⟩
    obtain rfl := mem_singleton.1 hq'
    rintro p fd hend (⟨rfl, rfl⟩ | ⟨rfl, rfl⟩)
    · exact hcur q hq hend
    · exact hremote q hq hend

/-! ### The calls -/

theorem fdNew_ok {r : ℕ × PipeSys} (h : k.fdNew node pid = .ok r)
    (hfree : (k.freeFd pid).isSome) :
    k.freeFd pid = some r.1 ∧ r.2 = k.setFd pid r.1 (some node) := by
  obtain ⟨t, ht, hrest⟩ := bind_eq_ok.1 h
  obtain ⟨p, hp, rfl⟩ := table_ok ht
  have hslot : k.freeFd pid = p.fdTable.findIdx? Option.isNone := by rw [freeFd, hp]
  rw [hslot] at hfree ⊢
  split at hrest
  · rename_i i hi
    cases hrest
    exact ⟨hi, rfl⟩
  · rename_i hnone
    rw [hnone] at hfree
    cases hfree

theorem openRemote_ok (h : k.openRemote pid remoteFd = .ok (some k')) :
    ∃ n : ℕ, remoteFd = n ∧ k' = k.setFd pid n (some .pipe) := by
  obtain ⟨p, -, hrest⟩ := bind_eq_ok.1 h
  split_ifs at hrest with hlt hneg
  · obtain ⟨t, -, hrest⟩ := bind_eq_ok.1 hrest
    cases hrest
  · obtain ⟨t, -, hrest⟩ := bind_eq_ok.1 hrest
    cases hrest
    exact ⟨remoteFd.toNat, (Int.toNat_of_nonneg (Int.not_lt.1 hneg)).symm, rfl⟩
  · cases hrest

/-- `syscall_open_pipe` changes nothing, or opens both descriptors and creates a pipe. -/
theorem syscallOpenPipe_ok {pid rdx : ℤ} (h : k.syscallOpenPipe cur pid remoteFd rdx = .ok r) :
    r.2 = k ∨ ∃ k1 newFd direction, k.openRemote pid.toNat remoteFd = .ok (some k1) ∧
      k1.fdNew .pipe cur = .ok newFd ∧
      r.2 = newFd.2.createPipe newFd.1 remoteFd cur pid.toNat direction := by
  unfold syscallOpenPipe at h
  split_ifs at h
  · exact Or.inl (congrArg Prod.snd (Except.ok.inj h)).symm
  · obtain ⟨p, -, h⟩ := bind_eq_ok.1 h
    obtain ⟨remote, hremote, h⟩ := bind_eq_ok.1 h
    cases remote with
    | none => exact Or.inl (congrArg Prod.snd (Except.ok.inj h)).symm
    | some k1 =>
      obtain ⟨newFd, hnew, h⟩ := bind_eq_ok.1 h
      cases h
      exact Or.inr ⟨k1, newFd, _, hremote, hnew, rfl⟩

theorem EndsOk.syscallOpenPipe {pid rdx : ℤ} (h : k.EndsOk)
    (hfresh : k.Fresh (.openPipe cur pid remoteFd rdx))
    (hr : k.syscallOpenPipe cur pid remoteFd rdx = .ok r) : r.2.EndsOk := by
  rcases syscallOpenPipe_ok hr with hk | ⟨k1, newFd, direction, hremote, hnew, hk⟩
  · rwa [hk]
  · dsimp only [Fresh] at hfresh
    rw [hremote] at hfresh
    dsimp only at hfresh
    split at hfresh
    · rename_i i hi
      obtain ⟨hfree, hset⟩ := fdNew_ok hnew (by rw [hi]; rfl)
      obtain ⟨n, rfl, rfl⟩ := openRemote_ok hremote
      obtain rfl : i = newFd.1 := Option.some.inj (hi.symm.trans hfree)
      rw [hk, hset]
      exact h.openPipe (fun q hq => (hfresh q hq).1) fun q hq => (hfresh q hq).2
    · exact hfresh.elim

theorem EndsOk.step {closeOp : FileNode → ℤ → ℤ} {op : Op} (h : k.EndsOk)
    (hstep : PipeStep closeOp k op k') : k'.EndsOk := by
  obtain ⟨hfresh, hexec⟩ := hstep
  cases op with
  | openPipe cur pid remoteFd rdx =>
    obtain ⟨r, hr, rfl⟩ := map_eq_ok.1 hexec
    exact h.syscallOpenPipe hfresh hr
  | openFile pid =>
    obtain ⟨r, hr, rfl⟩ := map_eq_ok.1 hexec
    rw [(fdNew_ok hr hfresh).2]
    refine h.mono setFd_pipes fun q fd hfd => ?_
    rcases fileAt_setFd hfd with hfd | ⟨-, -, hnode⟩
    · exact hfd
    · cases hnode
  | close cur fd =>
    obtain ⟨r, hr, rfl⟩ := map_eq_ok.1 hexec
    obtain ⟨found, -, hrest⟩ := bind_eq_ok.1 hr
    cases found with
    | none =>
      cases hrest
      exact h
    | some node =>
      cases hrest
      refine h.mono setFd_pipes fun q fd hfd => ?_
      rcases fileAt_setFd hfd with hfd | ⟨-, -, hnone⟩
      · exact hfd
      · cases hnone
  | create ppid =>
    cases hexec
    refine h.mono rfl fun q fd hfd => ?_
    rcases fileAt_createProcess hfd with hfd | hnew
    · exact hfd
    · rw [← nil_append (List.replicate 10 none), get_append_replicate] at hnew
      cases hnew
  | fork cur =>
    obtain ⟨t, ht, hrest⟩ := bind_eq_ok.1 hexec
    dsimp only [Fresh] at hfresh
    rw [ht] at hfresh
    cases hrest
    refine h.mono rfl fun q fd hfd => ?_
    rcases fileAt_createProcess hfd with hfd | hnew
    · exact hfd
    · exact absurd (mem_cloneFds (mem_reduceOption.2 ⟨fd, hnew⟩)) hfresh
  | exit pid =>
    obtain ⟨t, -, hrest⟩ := bind_eq_ok.1 hexec
    cases hrest
    refine h.mono rfl fun q fd hfd => ?_
    unfold fileAt at hfd ⊢
    rw [get_set_none] at hfd
    split_ifs at hfd
    · cases hfd
    · exact hfd

/-- **In every run in which no end is used twice, no table has to grow and no process with open
pipes forks, `lookup_pipe` finds the newest pipe of every open pipe descriptor.** -/
theorem lookup_newest {closeOp : FileNode → ℤ → ℤ} {ops : List Op}
    (h : Run (PipeStep closeOp) init ops k) : k.Newest :=
  (h.invariant (I := EndsOk) endsOk_init fun _ _ _ hk hl => hk.step hl).newest

/-- Process 0 opens and closes two pipes to its child 1 at different ends. -/
def twoPipes : List Op := [.create 0, .create 0, .openPipe 0 1 3 1, .close 1 3, .openPipe 0 1 4 1]

theorem lookup_newest_twoPipes :
    ∃ k, Run (PipeStep fun _ _ => 0) init twoPipes k ∧ k.lookupPipe 0 1 = some 1 ∧ k.Newest := by
  have hruns : ∃ k, Run (PipeStep fun _ _ => 0) init twoPipes k ∧
      decide (k.lookupPipe 0 1 = some 1) :=
    Run.exists_of_exec (P := Fresh) (f := (exec · fun _ _ => 0))
      (q := fun k => decide (lookupPipe k 0 1 = some 1)) (by decide +kernel)
  obtain ⟨k, hrun, hk⟩ := hruns
  exact ⟨k, hrun, of_decide_eq_true hk, lookup_newest hrun⟩

/-- A pipe that is closed, and a second one to another process. -/
def reusedEnd : List Op :=
  [.create 0, .create 0, .create 0, .openPipe 0 1 3 1, .close 0 0, .close 1 3, .openPipe 0 2 3 1]

/-- The descriptor of the second pipe leads to the first one. -/
theorem lookup_finds_old : ∃ k, reusedEnd.foldlM (exec · fun _ _ => 0) init = .ok k ∧
    k.fdLookupPid 0 0 = .ok (some .pipe) ∧ k.lookupPipe 0 0 = some 0 ∧
    (k.pipes.map PipeEnds.targetPid = [1, 2]) ∧ ¬ k.Newest := by
  refine ⟨_, rfl, by decide, by decide, by decide, fun h => ?_⟩
  obtain ⟨i, hi, hmax⟩ := h 0 0 (by decide)
  obtain rfl : i = 0 := Option.some.inj (hi.symm.trans (by decide))
  exact absurd (hmax 1 _ rfl (by decide)) (by decide)

end PipeSys

end DripOS
