import DripOS.Fs.Fd
import DripOS.Proc.Mmap

/-!
# Reading and writing through a file descriptor

`syscall_read` and `syscall_write` of `src/proc/syscalls.c`, through `fd_read`, `fd_write`,
`vfs_read` and `vfs_write`, down to the call of the driver.  The only test of the buffer is
`range_mapped`: it asks neither whether a page belongs to the user, nor for the page that holds the
end of the buffer.

`syscall_userBuffer_iff` : the calls whose buffer is user memory when the driver gets it.
-/

namespace DripOS

open Option

/-- What the calls read from the processor and from the current thread. -/
structure CpuState where
  /-- `get_cur_thread()->ring`. -/
  ring : ℕ
  /-- `get_cpu_locals()->ignore_ring`. -/
  ignoreRing : Bool
  /-- The value of `cr3`. -/
  base : ℕ

/-- The registers of `syscall_reg_t` that the calls use. -/
structure SyscallRegs where
  rax : ℕ
  rdi : ℕ
  rsi : ℕ
  rdx : ℕ

/-- A call of `node->ops.read` or `node->ops.write`, and `ignore_ring` during the call. -/
structure DriverCall where
  node : Ptr
  fd : ℤ
  buf : ℕ
  count : ℕ
  ignoreRing : Bool

/-- The outcome of `fd_read` or `fd_write`: the call of the driver, the result, and `ignore_ring`.
-/
structure FdOutcome where
  call : Option DriverCall
  ret : ℤ
  ignoreRing : Bool

namespace FdState

variable (k : FdState)

/-- `vfs_read` and `vfs_write`, up to the call of the driver. -/
def vfsCall (fd : ℤ) (buf count : ℕ) (ignoreRing : Bool) : Except Halt DriverCall :=
  let fdEntry := k.fdLookup fd
  if fdEntry = 0 then .error .fault
  else .ok ⟨k.machine.readWord (fdEntry + 8 * 1), fd, buf, count, ignoreRing⟩

/-- `fd_read` and `fd_write`, which differ in the error number for a bad buffer. -/
def fdAccess (badBuffer : Errno) (driver : DriverCall → ℤ) (cpu : CpuState) (fd : ℤ)
    (buf count : ℕ) : Except Halt FdOutcome :=
  let setIgnore := decide (cpu.ring = 3) && !cpu.ignoreRing
  let ignoreRing := if setIgnore then true else cpu.ignoreRing
  let ignoreRing' := if setIgnore then false else ignoreRing
  if k.fdLookup fd = 0 then .ok ⟨none, -Errno.ebadf.code, ignoreRing'⟩
  else if !k.machine.rangeMapped cpu.base buf count then
    .ok ⟨none, -badBuffer.code, ignoreRing'⟩
  else do
    let call ← k.vfsCall fd buf count ignoreRing
    pure ⟨some call, driver call, ignoreRing'⟩

/-- `fd_read`. -/
def fdRead := k.fdAccess .ebadf

/-- `fd_write`. -/
def fdWrite := k.fdAccess .efault

/-- The result of a system call in its registers. -/
def setResult (r : SyscallRegs) (ret : ℤ) : SyscallRegs :=
  if ret ≥ 0 then { r with rax := ret.toNat } else { r with rax := 2 ^ 64 - 1, rdx := (-ret).toNat }

/-- `syscall_read`. -/
def syscallRead (driver : DriverCall → ℤ) (cpu : CpuState) (r : SyscallRegs) :
    Except Halt (FdOutcome × SyscallRegs) := do
  let ret ← k.fdRead driver cpu (toInt r.rdi) r.rsi r.rdx
  pure (ret, setResult r ret.ret)

/-- `syscall_write`. -/
def syscallWrite (driver : DriverCall → ℤ) (cpu : CpuState) (r : SyscallRegs) :
    Except Halt (FdOutcome × SyscallRegs) := do
  let ret ← k.fdWrite driver cpu (toInt r.rdi) r.rsi r.rdx
  pure (ret, setResult r ret.ret)

variable {k}

/-- The driver is called exactly when the number is open and `range_mapped` accepts the buffer. -/
theorem fdAccess_eq (badBuffer : Errno) (driver : DriverCall → ℤ) (cpu : CpuState) (fd : ℤ)
    (buf count : ℕ) : ∃ res, k.fdAccess badBuffer driver cpu fd buf count = .ok res ∧
      res.ignoreRing = cpu.ignoreRing ∧
      (res.call.isSome ↔ k.fdLookup fd ≠ 0 ∧ k.machine.rangeMapped cpu.base buf count = true) ∧
      ∀ c ∈ res.call, c.fd = fd ∧ c.buf = buf ∧ c.count = count := by
  have hflag : (if (decide (cpu.ring = 3) && !cpu.ignoreRing) = true then false
      else if (decide (cpu.ring = 3) && !cpu.ignoreRing) = true then true else cpu.ignoreRing) =
      cpu.ignoreRing := by
    cases cpu.ignoreRing <;> simp
  unfold fdAccess vfsCall
  by_cases hfd : k.fdLookup fd = 0
  · exact ⟨_, if_pos hfd, hflag, by simp [hfd], by simp⟩
  · cases hm : k.machine.rangeMapped cpu.base buf count with
    | false => exact ⟨_, by simp only [hfd]; rfl, hflag, by simp, by simp⟩
    | true =>
      refine ⟨_, by simp only [hfd]; rfl, hflag, by simp [hfd], ?_⟩
      rintro c ⟨⟩
      exact ⟨rfl, rfl, rfl⟩

end FdState

/-! ### What `range_mapped` establishes -/

namespace Machine

variable {s : Machine} {r : ℕ}

/-- Below the end of the lower half, `range_mapped` looks at every page from the first byte on, up
to but without the page of the byte after the buffer. -/
theorem isMapped_of_rangeMapped {base buf count a : ℕ} (hend : buf + count ≤ 2 ^ 47)
    (h : s.rangeMapped base buf count = true) (ha : buf / 0x1000 ≤ a)
    (ha' : a < (buf + count) / 0x1000) : s.isMapped base (a * 0x1000) = true := by
  refine (rangeMapped_eq_true (by omega) (by omega) (by omega)).1 h a ⟨ha, by omega⟩ ?_
  unfold Unseen
  omega

/-- A page that `is_mapped` accepts is mapped, or the walk strayed. -/
theorem translate_of_isMapped {virt : ℕ} {v : PtOff} (hs : UserSpace s r)
    (hv : vmmVirtToOffs virt = v) (h : s.isMapped (r * 0x1000) virt = true) :
    (translate s.mem r v).isSome ∨ Stray s.mem r v := by
  rcases virtToPhys_cases hs.root_lt hs.clean (hs.regular v) hv with hn | ⟨f, fl, hf, -⟩ | hst
  · rw [isMapped, hn] at h
    exact absurd h (by decide)
  · rw [hf]
    exact Or.inl rfl
  · exact Or.inr hst

end Machine

/-! ### Buffers in user memory -/

/-- Every byte lies in the lower half, on a page that is mapped for the user. -/
def UserBuffer (mem : ℕ → Fin 512 → ℕ) (r buf count : ℕ) : Prop :=
  ∀ j < count, buf + j < 0x800000000000 ∧
    ∃ f fl, translate mem r (vmmVirtToOffs (buf + j)) = some (f, fl) ∧ fl &&& vmmUser ≠ 0

/-- What has to hold beside `range_mapped`: the buffer ends in the lower half, no page of it is a
page of the kernel, the page of its end is mapped, and the walk does not stray through physical page
0. -/
structure BufferOk (mem : ℕ → Fin 512 → ℕ) (r buf count : ℕ) : Prop where
  below : buf + count ≤ 0x800000000000
  user : ∀ j < count, ∀ f fl, translate mem r (vmmVirtToOffs (buf + j)) = some (f, fl) →
    fl &&& vmmUser ≠ 0
  last : (buf + count) % 0x1000 ≠ 0 → (translate mem r (vmmVirtToOffs (buf + count - 1))).isSome
  quiet : ∀ j < count, ¬ Stray mem r (vmmVirtToOffs (buf + j))

/-- **A buffer that passed `range_mapped` is user memory exactly when it is empty or
`BufferOk`.** -/
theorem userBuffer_iff {s : Machine} {r buf count : ℕ} (hs : Machine.UserSpace s r)
    (h : s.rangeMapped (r * 0x1000) buf count = true) :
    UserBuffer s.mem r buf count ↔ count = 0 ∨ BufferOk s.mem r buf count := by
  constructor
  · intro hu
    rcases Nat.eq_zero_or_pos count with hz | hpos
    · exact Or.inl hz
    refine Or.inr ⟨?_, fun j hj f fl hf => ?_, fun _ => ?_, fun j hj hst => ?_⟩
    · have := (hu (count - 1) (by omega)).1
      omega
    · obtain ⟨-, f', fl', hf', hfl⟩ := hu j hj
      rw [hf] at hf'
      cases hf'
      exact hfl
    · obtain ⟨-, f, fl, hf, -⟩ := hu (count - 1) (by omega)
      rw [Nat.add_sub_assoc hpos, hf]
      rfl
    · obtain ⟨-, f, fl, hf, -⟩ := hu j hj
      obtain ⟨t, ht⟩ := Machine.exists_walk_of_translate (hs.regular _) hf
      exact Machine.not_stray_of_walk ht hst
  · rintro (rfl | hb) j hj
    · exact absurd hj j.not_lt_zero
    have hbelow := hb.below
    refine ⟨by omega, ?_⟩
    have hsome : (translate s.mem r (vmmVirtToOffs (buf + j))).isSome := by
      by_cases hprobed : (buf + j) / 0x1000 < (buf + count) / 0x1000
      · -- the page was looked at
        have hm := Machine.isMapped_of_rangeMapped (by omega) h (by omega) hprobed
        refine (Machine.translate_of_isMapped hs ?_ hm).resolve_right (hb.quiet j hj)
        rw [vmmVirtToOffs_eq_iff]
        omega
      · -- the page of the last byte
        have hpage : vmmVirtToOffs (buf + j) = vmmVirtToOffs (buf + count - 1) := by
          rw [vmmVirtToOffs_eq_iff]
          omega
        rw [hpage]
        exact hb.last (by omega)
    obtain ⟨⟨f, fl⟩, hf⟩ := isSome_iff_exists.1 hsome
    exact ⟨f, fl, hf, hb.user j hj f fl hf⟩

namespace FdState

variable {k : FdState} {r : ℕ}

/-- The call hands only user memory to the driver. -/
def HandsUserBuffer (k : FdState) (r : ℕ) (regs : SyscallRegs) (res : FdOutcome) : Prop :=
  ∀ c ∈ res.call, c.buf = regs.rsi ∧ c.count = regs.rdx ∧ UserBuffer k.machine.mem r c.buf c.count

/-- When the number is open and `range_mapped` accepts the buffer, it is empty or `BufferOk`. -/
def AccessOk (k : FdState) (r : ℕ) (regs : SyscallRegs) : Prop :=
  k.fdLookup (toInt regs.rdi) ≠ 0 →
    k.machine.rangeMapped (r * 0x1000) regs.rsi regs.rdx = true →
    regs.rdx = 0 ∨ BufferOk k.machine.mem r regs.rsi regs.rdx

theorem HandsUserBuffer.userBuffer {regs : SyscallRegs} {res : FdOutcome}
    (h : k.HandsUserBuffer r regs res) (hcall : res.call.isSome) :
    UserBuffer k.machine.mem r regs.rsi regs.rdx := by
  obtain ⟨c, hc⟩ := isSome_iff_exists.1 hcall
  obtain ⟨hbuf, hcount, huser⟩ := h c hc
  rwa [hbuf, hcount] at huser

theorem fdAccess_handsUserBuffer_iff (hs : k.machine.UserSpace r) (badBuffer : Errno)
    (driver : DriverCall → ℤ) {cpu : CpuState} (hbase : cpu.base = r * 0x1000)
    (regs : SyscallRegs) :
    ∃ res, k.fdAccess badBuffer driver cpu (toInt regs.rdi) regs.rsi regs.rdx = .ok res ∧
      (k.HandsUserBuffer r regs res ↔ k.AccessOk r regs) := by
  obtain ⟨res, hres, -, hcall, harg⟩ :=
    fdAccess_eq (k := k) badBuffer driver cpu (toInt regs.rdi) regs.rsi regs.rdx
  rw [hbase] at hcall
  refine ⟨res, hres, fun hu hfd hm => ?_, fun hok c hc => ?_⟩
  · exact (userBuffer_iff hs hm).1 (hu.userBuffer (hcall.2 ⟨hfd, hm⟩))
  · obtain ⟨hfd, hm⟩ := hcall.1 (isSome_iff_exists.2 ⟨c, hc⟩)
    obtain ⟨-, hbuf, hcount⟩ := harg c hc
    refine ⟨hbuf, hcount, ?_⟩
    rw [hbuf, hcount]
    exact (userBuffer_iff hs hm).2 (hok hfd hm)

/-- **When `read` and `write` keep to user memory**: exactly under `AccessOk`. -/
theorem syscall_userBuffer_iff (hs : k.machine.UserSpace r) {cpu : CpuState}
    (hbase : cpu.base = r * 0x1000) (read write : DriverCall → ℤ) (regs : SyscallRegs) :
    (∃ res, k.syscallRead read cpu regs = .ok res ∧
      (k.HandsUserBuffer r regs res.1 ↔ k.AccessOk r regs)) ∧
    ∃ res, k.syscallWrite write cpu regs = .ok res ∧
      (k.HandsUserBuffer r regs res.1 ↔ k.AccessOk r regs) := by
  obtain ⟨res, hres, hiff⟩ := fdAccess_handsUserBuffer_iff hs .ebadf read hbase regs
  obtain ⟨res', hres', hiff'⟩ := fdAccess_handsUserBuffer_iff hs .efault write hbase regs
  refine ⟨⟨(res, setResult regs res.ret), ?_, hiff⟩, (res', setResult regs res'.ret), ?_, hiff'⟩
  · rw [syscallRead, fdRead, hres, ok_bind]
    rfl
  · rw [syscallWrite, fdWrite, hres', ok_bind]
    rfl

/-- The machine `onePage` with an open file: its table is in frame 8, its entry in frame 9. -/
def oneFile : FdState where
  machine :=
    { mem := fun f i =>
        if f = 8 ∧ i = 0 then Machine.wordPtr 9 0 else if f = 9 ∧ i = 1 then 100
        else (Machine.onePage 0xff).mem f i
      pmm := (Machine.onePage 0xff).pmm }
  processes _ := ⟨0x1000, 0, Machine.wordPtr 8 0, 10⟩
  curPid := 1

theorem userSpace_oneFile : oneFile.machine.UserSpace 1 := by
  refine Machine.userSpace_onePage.congr (fun t ⟨π, hπ⟩ => ?_) rfl
  have htab : ∀ x ∈ Machine.onePageTables, x.2 ≠ 8 ∧ x.2 ≠ 9 := by decide
  obtain ⟨h8, h9⟩ := htab _ ((Machine.describes_onePage 0xff).mem hπ)
  funext i
  exact (if_neg fun h => h8 h.1).trans (if_neg fun h => h9 h.1)

/-- A read into the last page of the lower half. -/
theorem syscall_userBuffer_oneFile :
    ∃ res, oneFile.syscallRead (fun _ => 0) ⟨3, false, 0x1000⟩ ⟨0, 0, 0x7ffffffff000, 0x1000⟩ =
      .ok res ∧ res.1.call.isSome ∧
      oneFile.HandsUserBuffer 1 ⟨0, 0, 0x7ffffffff000, 0x1000⟩ res.1 := by
  obtain ⟨res, hres, hiff⟩ := (@syscall_userBuffer_iff oneFile 1 userSpace_oneFile
    ⟨3, false, 0x1000⟩ rfl (fun _ => 0) (fun _ => 0) ⟨0, 0, 0x7ffffffff000, 0x1000⟩).1
  obtain ⟨res', hres', hcall⟩ := exists_ok_of_map
    (x := oneFile.syscallRead (fun _ => 0) ⟨3, false, 0x1000⟩ ⟨0, 0, 0x7ffffffff000, 0x1000⟩)
    (f := fun res => res.1.call.isSome) (b := true) (by decide +kernel)
  obtain rfl : res' = res := Except.ok.inj (hres'.symm.trans hres)
  have hpage : translate oneFile.machine.mem 1 ⟨255, 511, 511, 511⟩ = some (7, 7) := by
    decide +kernel
  -- all bytes are on one page
  have hbyte : ∀ j < 0x1000, vmmVirtToOffs (0x7ffffffff000 + j) = ⟨255, 511, 511, 511⟩ := by
    intro j hj
    rw [show (⟨255, 511, 511, 511⟩ : PtOff) = vmmVirtToOffs 0x7ffffffff000 by decide,
      vmmVirtToOffs_eq_iff]
    omega
  refine ⟨res', hres, hcall, hiff.2 fun _ _ => Or.inr ⟨by decide, fun j hj f fl hf => ?_,
    fun h => absurd rfl h, fun j hj => ?_⟩⟩
  · rw [hbyte j hj, hpage] at hf
    cases hf
    decide
  · rw [hbyte j hj]
    obtain ⟨t, ht⟩ := Machine.exists_walk_of_translate (userSpace_oneFile.regular _) hpage
    exact Machine.not_stray_of_walk ht

/-- **`read` writes to kernel memory for a user.**  A buffer at the start of the direct map passes
the test, and so does one on a page that is not mapped, when it does not reach the end of the page.
-/
theorem syscall_not_userBuffer :
    (∃ res, oneFile.syscallRead (fun _ => 0) ⟨3, false, 0x1000⟩
        ⟨0, 0, 0xffff800000000000, 0x1000⟩ = .ok res ∧
      ¬ oneFile.HandsUserBuffer 1 ⟨0, 0, 0xffff800000000000, 0x1000⟩ res.1) ∧
    ∃ res, oneFile.syscallRead (fun _ => 0) ⟨3, false, 0x1000⟩ ⟨0, 0, 0x400000, 8⟩ = .ok res ∧
      ¬ oneFile.HandsUserBuffer 1 ⟨0, 0, 0x400000, 8⟩ res.1 := by
  refine ⟨?_, ?_⟩
  · refine exists_ok_and (·.1.call.isSome) true (by decide +kernel) fun res _ hcall hu => ?_
    exact absurd (hu.userBuffer hcall 0 (by decide)).1 (by decide)
  · refine exists_ok_and (·.1.call.isSome) true (by decide +kernel) fun res _ hcall hu => ?_
    obtain ⟨-, f, fl, hf, -⟩ := hu.userBuffer hcall 0 (by decide)
    cases hf

end FdState

end DripOS
