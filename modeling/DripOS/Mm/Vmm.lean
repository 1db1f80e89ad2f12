import DripOS.Mm.Pmm

/-!
# The virtual memory manager

The functions of `src/mm/vmm.c`.  Physical memory is a sequence of frames of 512 words of 64 bits.
Frame `f` is at the address `GET_HIGHER_HALF(f * 0x1000)` of the direct map; a pointer to a page
table is such an address, and `entries` and `setEntry` follow it.  A table entry holds a frame
address in its upper 52 bits and flags in its lower 12.

Locks and TLB invalidation have no effect on this state.  A computation stops with
`Halt.noFreeMemory` when the physical memory manager has no page left.
-/

namespace DripOS

/-! ### Constants and addresses -/

/-- `VMM_PRESENT`. -/
def vmmPresent : ℕ := 1
/-- `VMM_WRITE`. -/
def vmmWrite : ℕ := 2
/-- `VMM_USER`. -/
def vmmUser : ℕ := 4
/-- `VMM_HUGE`. -/
def vmmHuge : ℕ := 0x80

/-- `VMM_4K_PERM_MASK`, the `int` value `~0xfff` extended to 64 bits. -/
def vmm4kPermMask : ℕ := 0xFFFFFFFFFFFFF000

/-- `NORMAL_VMA_OFFSET`, the start of the direct map. -/
def normalVmaOffset : ℕ := 0xFFFF800000000000

/-- A kernel address, such as a `page_table_t *`. -/
abbrev Ptr := ℕ

/-- `GET_HIGHER_HALF`. -/
def getHigherHalf (a : ℕ) : Ptr := (a + normalVmaOffset) % 2 ^ 64

/-- `GET_LOWER_HALF`. -/
def getLowerHalf (a : Ptr) : ℕ := (a + (2 ^ 64 - normalVmaOffset)) % 2 ^ 64

/-- The result of a failed translation. -/
def notMapped : ℕ := 0xFFFFFFFFFFFFFFFF

instance neZeroEntries : NeZero 512 := ⟨by decide⟩

/-- `pt_off_t`: the four table indices of a virtual page. -/
@[ext] structure PtOff where
  p4Off : Fin 512
  p3Off : Fin 512
  p2Off : Fin 512
  p1Off : Fin 512
  deriving DecidableEq, Repr

/-- `pt_ptr_t`; the field `p4` is never set. -/
structure PtPtr where
  p3 : Ptr
  p2 : Ptr
  p1 : Ptr

/-- `vmm_virt_to_offs`. -/
def vmmVirtToOffs (addr : ℕ) : PtOff where
  p4Off := Fin.ofNat 512 ((addr &&& (0x1ff <<< 39)) >>> 39)
  p3Off := Fin.ofNat 512 ((addr &&& (0x1ff <<< 30)) >>> 30)
  p2Off := Fin.ofNat 512 ((addr &&& (0x1ff <<< 21)) >>> 21)
  p1Off := Fin.ofNat 512 ((addr &&& (0x1ff <<< 12)) >>> 12)

/-- `vmm_offs_to_virt`. -/
def vmmOffsToVirt (offs : PtOff) : ℕ :=
  offs.p4Off.val <<< 39 ||| offs.p3Off.val <<< 30 ||| offs.p2Off.val <<< 21 |||
    offs.p1Off.val <<< 12

/-! ### Physical memory -/

/-- Physical memory and its manager. -/
structure Machine where
  /-- The words of every frame. -/
  mem : ℕ → Fin 512 → ℕ
  /-- The physical memory manager. -/
  pmm : Pmm

namespace Machine

variable (s : Machine)

/-- `GET_HIGHER_HALF` leads to the frame: for higher ones it wraps around to the lower half. -/
abbrev InDirectMap (f : ℕ) : Prop := f < 2 ^ 35

/-- The frame a direct-map pointer refers to. -/
def tableFrame (t : Ptr) : ℕ := getLowerHalf t / 0x1000

/-- `t->entries[off]`, for a table with `InDirectMap`. -/
def entries (t : Ptr) (off : Fin 512) : ℕ := s.mem (tableFrame t) off

/-- `t->entries[off] = e`. -/
def setEntry (t : Ptr) (off : Fin 512) (e : ℕ) : Machine :=
  { s with mem := fun f i => if f = tableFrame t ∧ i = off then e else s.mem f i }

/-- Replace the 512 words of the page at `t`. -/
def writePage (t : Ptr) (c : Fin 512 → ℕ) : Machine :=
  { s with mem := fun f => if f = tableFrame t then c else s.mem f }

/-- `memset(t, 0, 0x1000)`. -/
def clearPage (t : Ptr) : Machine := s.writePage t fun _ => 0

/-- `memcpy64(GET_HIGHER_HALF(src), GET_HIGHER_HALF(dst), 0x200)` on whole pages.  A source that is
not page aligned comes from a failed translation. -/
def memcpyPage (src dst : ℕ) : Except Halt Machine :=
  if src % 0x1000 = 0 ∧ InDirectMap (src / 0x1000) then
    .ok (s.writePage (getHigherHalf dst) (s.mem (src / 0x1000)))
  else .error .fault

/-- `pmm_alloc`. -/
def pmmAlloc (size : ℕ) : Except Halt (ℕ × Machine) :=
  (s.pmm.pmmAlloc size).map fun r => (r.1, { s with pmm := r.2 })

/-- `pmm_unalloc`. -/
def pmmUnalloc (addr size : ℕ) : Except Halt Machine :=
  (s.pmm.pmmUnalloc addr size).map fun p => { s with pmm := p }

/-! ### Reading the tables -/

/-- `get_entry`. -/
def getEntry (curTable : Ptr) (offset : Fin 512) : ℕ := s.entries curTable offset

/-- `traverse_page_table`. -/
def traversePageTable (curTable : Ptr) (offset : Fin 512) : Ptr :=
  getHigherHalf (s.entries curTable offset &&& vmm4kPermMask)

/-- `virt_to_phys`. -/
def virtToPhys (virt p4 : ℕ) : ℕ :=
  let page4kOffset := virt &&& 0xfff
  let page2mOffset := virt &&& 0x1fffff
  let offs := vmmVirtToOffs virt
  let p4 := getHigherHalf p4
  let p3 := s.traversePageTable p4 offs.p4Off
  if p3 > normalVmaOffset then
    let p2 := s.traversePageTable p3 offs.p3Off
    if s.getEntry p2 offs.p2Off &&& vmmHuge ≠ 0 then
      ((s.entries p2 offs.p2Off &&& vmm4kPermMask) + page2mOffset) % 2 ^ 64
    else if p2 > normalVmaOffset then
      let p1 := s.traversePageTable p2 offs.p2Off
      if p1 > normalVmaOffset then
        if s.entries p1 offs.p1Off &&& vmmPresent ≠ 0 then
          ((s.entries p1 offs.p1Off &&& vmm4kPermMask) + page4kOffset) % 2 ^ 64
        else notMapped
      else notMapped
    else notMapped
  else notMapped

/-- `is_mapped`, with `base` the value of `cr3`. -/
def isMapped (base data : ℕ) : Bool := s.virtToPhys data base != notMapped

/-- The loop of `range_mapped`, with `pages` pages to go. -/
def rangeMappedLoop (base : ℕ) : (pages curAddr : ℕ) → Bool
  | 0, _ => true
  | pages + 1, curAddr =>
    if !s.isMapped base curAddr then false
    else rangeMappedLoop base pages ((curAddr + 0x1000) % 2 ^ 64)

/-- The number of pages `range_mapped` looks at. -/
def rangePages (data size : ℕ) : ℕ :=
  let curAddr := data &&& vmm4kPermMask
  let endAddr := (data + size) % 2 ^ 64 &&& vmm4kPermMask
  let roundedSize := (endAddr + 2 ^ 64 - curAddr) % 2 ^ 64
  (roundedSize + 0x1000 - 1) % 2 ^ 64 / 0x1000

/-- `range_mapped`. -/
def rangeMapped (base data size : ℕ) : Bool :=
  s.rangeMappedLoop base (rangePages data size) (data &&& vmm4kPermMask)

/-! ### Changing the tables -/

/-- `vmm_ensure_table`. -/
def vmmEnsureTable (table : Ptr) (offset : Fin 512) : Except Halt Machine :=
  if s.entries table offset &&& vmmPresent = 0 then do
    let new ← s.pmmAlloc 0x1000
    let s := new.2.clearPage (getHigherHalf new.1)
    pure (s.setEntry table offset (new.1 ||| vmmPresent ||| vmmWrite ||| vmmUser))
  else pure s

/-- `vmm_remap_to_4k`. -/
def vmmRemapTo4k (p2 : Ptr) (offset : Fin 512) : Except Halt Machine := do
  let new ← s.pmmAlloc 0x1000
  let newPml1Virt := (new.1 + normalVmaOffset) % 2 ^ 64
  let representedRange := new.2.entries p2 offset &&& vmm4kPermMask
  let perms := new.2.entries p2 offset &&& 0xfff
  let s := new.2.clearPage newPml1Virt
  -- the loop stores `cur_pos | perms`, `cur_pos` growing by one page per entry
  let s := s.writePage newPml1Virt fun i => (representedRange + i.val * 0x1000) % 2 ^ 64 ||| perms
  pure (s.setEntry p2 offset (new.1 ||| vmmPresent ||| vmmWrite ||| vmmUser))

/-- The third level of `vmm_get_table`: make sure that there is a table of 4 KiB entries. -/
def vmmGetTableP1 (p2 : Ptr) (p2Off : Fin 512) : Except Halt Machine :=
  let p2Entry := s.getEntry p2 p2Off
  if p2Entry &&& vmmHuge = 0 ∧ p2Entry &&& vmmPresent ≠ 0 then pure s
  else do
    let s ← if p2Entry &&& vmmHuge ≠ 0 ∧ p2Entry &&& vmmPresent ≠ 0 then s.vmmRemapTo4k p2 p2Off
      else pure s
    s.vmmEnsureTable p2 p2Off

/-- `vmm_get_table`. -/
def vmmGetTable (offs : PtOff) (p4 : ℕ) : Except Halt (PtPtr × Machine) := do
  let p4 := getHigherHalf p4
  let s ← s.vmmEnsureTable p4 offs.p4Off
  let p3 := s.traversePageTable p4 offs.p4Off
  let s ← s.vmmEnsureTable p3 offs.p3Off
  let p2 := s.traversePageTable p3 offs.p3Off
  let s ← s.vmmGetTableP1 p2 offs.p2Off
  pure (⟨p3, p2, s.traversePageTable p2 offs.p2Off⟩, s)

/-- One round of the loop of `vmm_map_pages`; `st.1` is `ret`. -/
def vmmMapPage (p4 perms curPhys curVirt : ℕ) (st : ℕ × Machine) : Except Halt (ℕ × Machine) := do
  let offs := vmmVirtToOffs curVirt
  let r ← st.2.vmmGetTable offs p4
  if r.2.entries r.1.p1 offs.p1Off &&& vmmPresent = 0 then
    pure (st.1, r.2.setEntry r.1.p1 offs.p1Off (curPhys ||| perms))
  else pure (1, r.2)

/-- `vmm_map_pages`. -/
def vmmMapPages (phys virt p4 count perms : ℕ) : Except Halt (ℕ × Machine) :=
  forRange count (fun page => vmmMapPage p4 perms
    (((phys &&& vmm4kPermMask) + page * 0x1000) % 2 ^ 64)
    (((virt &&& vmm4kPermMask) + page * 0x1000) % 2 ^ 64)) (0, s)

/-- One round of the loop of `vmm_remap_pages`. -/
def vmmRemapPage (p4 perms curPhys curVirt : ℕ) (st : ℕ × Machine) : Except Halt (ℕ × Machine) := do
  let offs := vmmVirtToOffs curVirt
  let r ← st.2.vmmGetTable offs p4
  pure (st.1, r.2.setEntry r.1.p1 offs.p1Off (curPhys ||| (perms ||| vmmPresent)))

/-- `vmm_remap_pages`. -/
def vmmRemapPages (phys virt p4 count perms : ℕ) : Except Halt (ℕ × Machine) :=
  forRange count (fun page => vmmRemapPage p4 perms
    (((phys &&& vmm4kPermMask) + page * 0x1000) % 2 ^ 64)
    (((virt &&& vmm4kPermMask) + page * 0x1000) % 2 ^ 64)) (0, s)

/-- One round of the loop of `vmm_unmap_pages`; `st.1` is `ret`. -/
def vmmUnmapPage (p4 curVirt : ℕ) (st : ℕ × Machine) : Except Halt (ℕ × Machine) := do
  let offs := vmmVirtToOffs curVirt
  let r ← st.2.vmmGetTable offs p4
  if r.2.entries r.1.p1 offs.p1Off &&& vmmPresent ≠ 0 then
    pure (st.1, r.2.setEntry r.1.p1 offs.p1Off 0)
  else pure (1, r.2)

/-- `vmm_unmap_pages`. -/
def vmmUnmapPages (virt p4 count : ℕ) : Except Halt (ℕ × Machine) :=
  forRange count (fun page => vmmUnmapPage p4 ((virt + page * 0x1000) % 2 ^ 64)) (0, s)

/-! ### Copying and tearing down an address space -/

/-- `vmm_fork_higher_half`. -/
def vmmForkHigherHalf (old : ℕ) : Except Halt (ℕ × Machine) := do
  let oldP4 := getHigherHalf old
  let new ← s.pmmAlloc 0x1000
  let newP4 := getHigherHalf new.1
  let s := new.2.clearPage newP4
  -- the loop copies the entries 256 to 511
  let s := s.writePage newP4 fun i => if 256 ≤ i.val then s.entries oldP4 i else s.entries newP4 i
  pure (new.1, s)

/-- The innermost body of `vmm_fork`: copy the page at the indices `offs` from `old` to `ret`. -/
def vmmForkPage (old ret : ℕ) (tableX : Ptr) (offs : PtOff) : Except Halt Machine := do
  let virt := vmmOffsToVirt offs
  let phys := s.virtToPhys virt old
  let new ← s.pmmAlloc 0x1000
  let s ← new.2.memcpyPage phys new.1
  let r ← s.vmmMapPages new.1 virt ret 1 (s.entries tableX offs.p1Off &&& 0xfff)
  pure r.2

/-- Run `body` on the table below the present ones of the first `n` entries. -/
@[irreducible] def forPresent (n : ℕ) (table : Ptr)
    (body : Fin 512 → Ptr → Machine → Except Halt Machine) : Except Halt Machine :=
  forRange n (fun i s =>
    let off := Fin.ofNat 512 i
    if s.entries table off &&& vmmPresent ≠ 0 then body off (s.traversePageTable table off) s
    else pure s) s

/-- `vmm_fork`: the four nested loops, over the present entries of each level. -/
def vmmFork (old : ℕ) : Except Halt (ℕ × Machine) := do
  let new ← s.vmmForkHigherHalf old
  let ret := new.1
  let s ← new.2.forPresent 256 (getHigherHalf old) fun w tableZ s =>
    s.forPresent 512 tableZ fun z tableY s =>
      s.forPresent 512 tableY fun y tableX s =>
        s.forPresent 512 tableX fun x _ s =>
          s.vmmForkPage old ret tableX ⟨w, z, y, x⟩
  pure (ret, s)

/-- `vmm_deconstruct_address_space`. -/
def vmmDeconstructAddressSpace (old : ℕ) : Except Halt Machine := do
  let s ← s.forPresent 256 (getHigherHalf old) fun _ tableZ s => do
    let s ← s.forPresent 512 tableZ fun _ tableY s => do
      let s ← s.forPresent 512 tableY fun _ tableX s => do
        let s ← s.forPresent 512 tableX fun _ page s =>
          s.pmmUnalloc (getLowerHalf page) 0x1000
        s.pmmUnalloc (getLowerHalf tableX) 0x1000
      s.pmmUnalloc (getLowerHalf tableY) 0x1000
    s.pmmUnalloc (getLowerHalf tableZ) 0x1000
  s.pmmUnalloc old 0x1000

end Machine

end DripOS
