import DripOS.Mm.Access
import DripOS.Mm.Fork

/-!
# Loading a program

`load_elf_addrspace` of `src/proc/exec_formats/elf.c`.  A segment gets frames of its own, and the
pages from its first address on are remapped to them; the interpreter that a header names is loaded
by a nested call into the same address space.  A program without interpreter gets a stack.

A file is the bytes that `fd_read` returns at each position.  Section headers are not used, and left
out, as are the buffers of the kernel heap.  The depth of nested calls is bounded by `fuel`; a file
that names itself as its interpreter overflows the stack of the kernel.

* `plan` : what is loaded, in order, through all nested calls;
* `machine_loadElfAddrspace` : the effect of a call is that of its plan.
-/

namespace DripOS

open List

namespace Elf

/-! ### The model -/

/-- `auxv_t`; the members of `a_un` are one word. -/
structure Auxv where
  aType : UInt64
  aUn : UInt64

/-- `PT_LOAD`. -/
def ptLoad : ℕ := 1
/-- `PT_INTERP`. -/
def ptInterp : ℕ := 3
/-- `PT_PHDR`. -/
def ptPhdr : ℕ := 6

/-- `AT_PHDR`. -/
def atPhdr : UInt64 := 3
/-- `AT_PHENT`. -/
def atPhent : UInt64 := 4
/-- `AT_PHNUM`. -/
def atPhnum : UInt64 := 5
/-- `AT_ENTRY`. -/
def atEntry : UInt64 := 9

/-- `USER_STACK`. -/
def userStack : ℕ := 0x7FFFFFFFFFF0
/-- `USER_STACK_SIZE`. -/
def userStackSize : ℕ := 0x200000
/-- `USER_STACK_PAGES`. -/
def userStackPages : ℕ := (userStackSize + 0x1000 - 1) / 0x1000
/-- `USER_STACK_START`. -/
def userStackStart : ℕ := userStack - userStackSize + 16

/-- Where the interpreter is loaded. -/
def interpBase : ℕ := 0x800000000

/-- `VMM_PRESENT | VMM_USER | VMM_WRITE`. -/
def segmentPerms : ℕ := vmmPresent ||| vmmUser ||| vmmWrite

/-- The fields of `elf_phdr_t` that are used. -/
structure ElfPhdr where
  pType : ℕ
  pOffset : ℕ
  pVaddr : ℕ
  pFilesz : ℕ
  pMemsz : ℕ
  deriving DecidableEq, Repr

/-- The fields of `elf_ehdr_t` that are used. -/
structure ElfEhdr where
  eEntry : ℕ
  ePhoff : ℕ
  ePhnum : ℕ
  deriving DecidableEq, Repr

/-- `sizeof(elf_phdr_t)`. -/
def sizeofPhdr : ℕ := 56

/-- Read the header of a file. -/
def readEhdr (file : Bytes) : ElfEhdr := ⟨file.getLE 24 8, file.getLE 32 8, file.getLE 56 2⟩

/-- Read the program header at `o`. -/
def readPhdr (file : Bytes) (o : ℕ) : ElfPhdr :=
  ⟨file.getLE o 4, file.getLE (o + 8) 8, file.getLE (o + 16) 8, file.getLE (o + 32) 8,
    file.getLE (o + 40) 8⟩

/-- The program headers of a file; `e_phentsize` is not used. -/
def readPhdrs (file : Bytes) : List ElfPhdr :=
  let ehdr := readEhdr file
  (List.range ehdr.ePhnum).map fun i => readPhdr file (ehdr.ePhoff + i * sizeofPhdr)

/-- `strncmp("\x7fELF", elf_magic, 4) == 0`. -/
def magicOk (file : Bytes) : Bool := file.toList 4 = [0x7f, 0x45, 0x4c, 0x46]

/-- A segment to load. -/
structure Segment where
  virt : ℕ
  memsz : ℕ
  filesz : ℕ
  data : Bytes

/-- The segment of a program header. -/
def ElfPhdr.segment (ph : ElfPhdr) (file : Bytes) (base : ℕ) : Segment where
  virt := (ph.pVaddr + base) % 2 ^ 64
  memsz := ph.pMemsz
  filesz := ph.pFilesz
  data := fun k => file (ph.pOffset + k)

/-- The path of the interpreter: `p_filesz` bytes, up to the first zero. -/
def ElfPhdr.ldPath (ph : ElfPhdr) (file : Bytes) : List UInt8 :=
  (Bytes.toList (fun k => file (ph.pOffset + k)) ph.pFilesz).takeWhile (· ≠ 0)

/-- The branch of the loop for `PT_LOAD`. -/
def loadSegment (cr3 : ℕ) (seg : Segment) (s : Machine) : Except Halt Machine := do
  let pages := Pmm.pagesOf seg.memsz
  let regionPhys ← s.pmmAlloc seg.memsz
  let regionVirt := (getHigherHalf regionPhys.1 + (seg.virt &&& 0xfff)) % 2 ^ 64
  let s := regionPhys.2.store regionVirt seg.memsz fun _ => 0
  let s := s.store regionVirt seg.filesz seg.data
  let r ← s.vmmRemapPages regionPhys.1 seg.virt cr3 pages segmentPerms
  .ok r.2

/-- The stack of a program without interpreter. -/
def loadStack (cr3 : ℕ) (s : Machine) : Except Halt Machine := do
  let physStackRegion ← s.pmmAlloc userStackSize
  let s := physStackRegion.2.store (getHigherHalf physStackRegion.1) userStackSize fun _ => 0
  let r ← s.vmmMapPages physStackRegion.1 userStackStart cr3 userStackPages segmentPerms
  .ok r.2

/-- The result of a call: the address space, `*entry_out` and `*auxv_out`. -/
structure LoadedElf where
  elfAddressSpace : ℕ
  entry : ℕ
  auxv : List Auxv

/-- The variables of the loop over the program headers. -/
structure LoadState where
  machine : Machine
  loadedDynamicLinker : Bool
  dynamicLinkerEntry : ℕ
  auxv : List Auxv

/-- One round of the loop; `load` is the nested call. -/
def loadPhdr (load : List UInt8 → Machine → Except Halt (Option LoadedElf × Machine))
    (file : Bytes) (base cr3 : ℕ) (st : LoadState) (ph : ElfPhdr) : Except Halt LoadState :=
  if ph.pType = ptLoad then
    if ph.pMemsz = 0 then .ok st
    else do
      let s ← loadSegment cr3 (ph.segment file base) st.machine
      .ok { st with machine := s }
  else if ph.pType = ptInterp then do
    let r ← load (ph.ldPath file) st.machine
    let ehdr := readEhdr file
    .ok { machine := r.2
          loadedDynamicLinker := true
          dynamicLinkerEntry := (r.1.map LoadedElf.entry).getD st.dynamicLinkerEntry
          auxv := st.auxv ++ [⟨atEntry, UInt64.ofNat (ehdr.eEntry + base)⟩,
            ⟨atPhnum, UInt64.ofNat ehdr.ePhnum⟩, ⟨atPhent, UInt64.ofNat sizeofPhdr⟩] }
  else if ph.pType = ptPhdr then
    .ok { st with auxv := st.auxv ++ [⟨atPhdr, UInt64.ofNat (ph.pVaddr + base)⟩] }
  else .ok st

/-- `load_elf_addrspace`; the result is `none` for a null pointer. -/
def loadElfAddrspace (files : List UInt8 → Option Bytes) (baseKernelCr3 : ℕ) :
    (fuel : ℕ) → (path : List UInt8) → (base : ℕ) → (exportCr3 : Option ℕ) → Machine →
    Except Halt (Option LoadedElf × Machine)
  | 0, _, _, _, _ => .error .fault
  | fuel + 1, path, base, exportCr3, s =>
    match files path with
    | none => .ok (none, s)
    | some file =>
      if magicOk file then do
        let new ← match exportCr3 with
          | none => s.vmmForkHigherHalf baseKernelCr3
          | some cr3 => .ok (cr3, s)
        let load := fun path s =>
          loadElfAddrspace files baseKernelCr3 fuel path interpBase (some new.1) s
        let st ← (readPhdrs file).foldlM (loadPhdr load file base new.1) ⟨new.2, false, 0, []⟩
        if st.loadedDynamicLinker then
          .ok (some ⟨new.1, st.dynamicLinkerEntry, st.auxv⟩, st.machine)
        else do
          let s ← loadStack new.1 st.machine
          .ok (some ⟨new.1, ((readEhdr file).eEntry + base) % 2 ^ 64, st.auxv⟩, s)
      else .ok (none, s)

/-! ### What is loaded -/

/-- A step that changes the address space. -/
inductive LoadOp where
  | segment (seg : Segment)
  | stack

/-- The effect of a step. -/
def LoadOp.run (cr3 : ℕ) : LoadOp → Machine → Except Halt Machine
  | .segment seg => loadSegment cr3 seg
  | .stack => loadStack cr3

/-- The effect of several steps. -/
def runOps (cr3 : ℕ) (ops : List LoadOp) (s : Machine) : Except Halt Machine :=
  ops.foldlM (fun s op => op.run cr3 s) s

/-- The steps of one program header. -/
def planPhdr (nested : List UInt8 → Option (List LoadOp)) (file : Bytes) (base : ℕ)
    (ph : ElfPhdr) : Option (List LoadOp) :=
  if ph.pType = ptLoad then
    some (if ph.pMemsz = 0 then [] else [.segment (ph.segment file base)])
  else if ph.pType = ptInterp then nested (ph.ldPath file)
  else some []

/-- The steps of some program headers. -/
def planPhdrs (nested : List UInt8 → Option (List LoadOp)) (file : Bytes) (base : ℕ) :
    List ElfPhdr → Option (List LoadOp)
  | [] => some []
  | ph :: phs => (planPhdr nested file base ph).bind fun ops =>
      (planPhdrs nested file base phs).map (ops ++ ·)

/-- A header names an interpreter. -/
def HasInterp (phs : List ElfPhdr) : Prop := ∃ ph ∈ phs, ph.pType = ptInterp

instance (phs : List ElfPhdr) : Decidable (HasInterp phs) :=
  inferInstanceAs (Decidable (∃ ph ∈ phs, _))

/-- The steps of a call; none when the calls are nested too deeply. -/
def plan (files : List UInt8 → Option Bytes) :
    (fuel : ℕ) → (path : List UInt8) → (base : ℕ) → Option (List LoadOp)
  | 0, _, _ => none
  | fuel + 1, path, base =>
    match files path with
    | none => some []
    | some file =>
      if magicOk file then
        (planPhdrs (fun path => plan files fuel path interpBase) file base (readPhdrs file)).map
          fun ops => ops ++ if HasInterp (readPhdrs file) then [] else [.stack]
      else some []

/-! ### The plan is carried out -/

section Plan

variable {files : List UInt8 → Option Bytes} {baseKernelCr3 cr3 base fuel : ℕ}
  {path : List UInt8} {file : Bytes} {ops ops' : List LoadOp} {s : Machine}
  {nested : List UInt8 → Option (List LoadOp)}
  {load : List UInt8 → Machine → Except Halt (Option LoadedElf × Machine)} {ph : ElfPhdr}
  {phs : List ElfPhdr} {st st' : LoadState}

@[simp] theorem runOps_cons {op : LoadOp} :
    runOps cr3 (op :: ops) s = op.run cr3 s >>= runOps cr3 ops :=
  foldlM_cons ..

theorem runOps_append : runOps cr3 (ops ++ ops') s = runOps cr3 ops s >>= runOps cr3 ops' :=
  foldlM_append ..

/-- One round of the loop carries out the steps of its header. -/
theorem machine_loadPhdr
    (hload : ∀ path ops s, nested path = some ops → (load path s).map Prod.snd = runOps cr3 ops s)
    (st : LoadState) (h : planPhdr nested file base ph = some ops) :
    (loadPhdr load file base cr3 st ph).map LoadState.machine = runOps cr3 ops st.machine := by
  rw [planPhdr] at h
  rw [loadPhdr]
  split_ifs at h ⊢ with hload' hmemsz hinterp
  · cases h
    rfl
  · cases h
    change _ = loadSegment cr3 _ _ >>= _
    cases loadSegment cr3 (ph.segment file base) st.machine <;> rfl
  · rw [← hload _ _ _ h]
    cases load (ph.ldPath file) st.machine <;> rfl
  · cases h
    rfl
  · cases h
    rfl

theorem machine_foldlM
    (hload : ∀ path ops s, nested path = some ops → (load path s).map Prod.snd = runOps cr3 ops s)
    (st : LoadState) (h : planPhdrs nested file base phs = some ops) :
    (phs.foldlM (loadPhdr load file base cr3) st).map LoadState.machine =
      runOps cr3 ops st.machine := by
  induction phs generalizing ops st with
  | nil =>
    cases h
    rfl
  | cons ph phs ih =>
    rw [planPhdrs, Option.bind_eq_some_iff] at h
    obtain ⟨ops1, h1, h⟩ := h
    obtain ⟨ops2, h2, rfl⟩ := Option.map_eq_some_iff.1 h
    have hround := machine_loadPhdr hload st h1
    rw [foldlM_cons, runOps_append, ← hround]
    cases loadPhdr load file base cr3 st ph with
    | error e => rfl
    | ok st1 => exact ih st1 h2

theorem loadedDynamicLinker_loadPhdr (h : loadPhdr load file base cr3 st ph = .ok st') :
    st'.loadedDynamicLinker ↔ st.loadedDynamicLinker ∨ ph.pType = ptInterp := by
  rw [loadPhdr] at h
  split_ifs at h with hload hmemsz hinterp
  · cases h
    simp [hload, ptLoad, ptInterp]
  · obtain ⟨s, -, h⟩ := bind_eq_ok.1 h
    cases h
    simp [hload, ptLoad, ptInterp]
  · obtain ⟨r, -, h⟩ := bind_eq_ok.1 h
    cases h
    simp [hinterp]
  · cases h
    simp [hinterp]
  · cases h
    simp [hinterp]

theorem loadedDynamicLinker_foldlM (h : phs.foldlM (loadPhdr load file base cr3) st = .ok st') :
    st'.loadedDynamicLinker ↔ st.loadedDynamicLinker ∨ HasInterp phs := by
  induction phs generalizing st with
  | nil =>
    cases h
    simp [HasInterp]
  | cons ph phs ih =>
    obtain ⟨st1, h1, h⟩ := bind_eq_ok.1 h
    rw [ih h, loadedDynamicLinker_loadPhdr h1, HasInterp, HasInterp, exists_mem_cons_iff, or_assoc]

/-- **The effect of a call on an address space is that of its plan.** -/
theorem machine_loadElfAddrspace (h : plan files fuel path base = some ops) :
    (loadElfAddrspace files baseKernelCr3 fuel path base (some cr3) s).map Prod.snd =
      runOps cr3 ops s := by
  induction fuel generalizing path base ops s with
  | zero => cases h
  | succ fuel ih =>
    rw [plan] at h
    rw [loadElfAddrspace]
    cases hfile : files path with
    | none =>
      rw [hfile] at h
      cases h
      rfl
    | some file =>
      simp only [hfile] at h ⊢
      by_cases hmagic : magicOk file
      swap
      · rw [if_neg hmagic] at h ⊢
        cases h
        rfl
      rw [if_pos hmagic] at h ⊢
      obtain ⟨ops, hops, rfl⟩ := Option.map_eq_some_iff.1 h
      have hloop := machine_foldlM (fun path ops s h => @ih interpBase path ops s h)
        ⟨s, false, 0, []⟩ hops
      rw [runOps_append, ← hloop, ok_bind]
      cases hst : (readPhdrs file).foldlM (loadPhdr (fun path s =>
          loadElfAddrspace files baseKernelCr3 fuel path interpBase (some cr3) s) file base cr3)
          ⟨s, false, 0, []⟩ with
      | error e => rfl
      | ok st =>
        have hlinker := loadedDynamicLinker_foldlM hst
        simp only [Bool.false_eq_true, false_or] at hlinker
        rw [ok_bind]
        by_cases hinterp : HasInterp (readPhdrs file)
        · rw [if_pos hinterp, if_pos (hlinker.2 hinterp)]
          rfl
        · rw [if_neg hinterp, if_neg (mt hlinker.1 hinterp)]
          change _ = loadStack cr3 st.machine >>= _
          cases loadStack cr3 st.machine <;> rfl

theorem loadElfAddrspace_some (hfile : files path = some file) (hmagic : magicOk file)
    {r : Option LoadedElf × Machine}
    (h : loadElfAddrspace files baseKernelCr3 fuel path base (some cr3) s = .ok r) :
    ∃ elf, r.1 = some elf ∧ elf.elfAddressSpace = cr3 := by
  cases fuel with
  | zero => cases h
  | succ fuel =>
    rw [loadElfAddrspace] at h
    simp only [hfile, if_pos hmagic, ok_bind] at h
    obtain ⟨st, -, h⟩ := bind_eq_ok.1 h
    split_ifs at h
    · cases h
      exact ⟨_, rfl, rfl⟩
    · obtain ⟨s', -, h⟩ := bind_eq_ok.1 h
      cases h
      exact ⟨_, rfl, rfl⟩

/-- Without an address space, a new one is made first. -/
theorem loadElfAddrspace_none (hfile : files path = some file) (hmagic : magicOk file) :
    loadElfAddrspace files baseKernelCr3 (fuel + 1) path base none s =
      s.vmmForkHigherHalf baseKernelCr3 >>= fun new =>
        loadElfAddrspace files baseKernelCr3 (fuel + 1) path base (some new.1) new.2 := by
  simp only [loadElfAddrspace, hfile, if_pos hmagic]
  rfl

end Plan

end Elf

end DripOS
