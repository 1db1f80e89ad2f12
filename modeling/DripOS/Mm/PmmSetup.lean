import DripOS.Mm.PmmHistory

/-!
# The boot of the physical memory manager

`pmm_memory_setup` lays the bitmap behind the kernel, marks every page as used, opens the pages of
the available regions and closes the pages of the kernel and the bitmap again.  The counters are set
from the regions alone, before the last loop.

* `Boot.used_pmmMemorySetup` : the marked pages after the setup;
* `Boot.zeros_eq_iff` : the regions' lengths add up to the free pages exactly when the regions are
  disjoint, covered by the bitmap, and hold no page of the kernel and the bitmap;
* `Boot.accounted_iff` : **then, and only then, the counters are right at the boot and after every
  sequence of `pmm_alloc` and `pmm_unalloc`.**
-/

namespace DripOS

open Bitmap Finset

/-- `e820_entry_t`: an entry of the memory map. -/
structure E820Entry where
  addr : BitVec 64
  len : BitVec 64
  type : BitVec 32
  deriving DecidableEq, Repr

/-- `ROUND_UP(N, 0x1000)`. -/
def roundUp (n : BitVec 64) : BitVec 64 := (n + 0x1000 - 1) / 0x1000 * 0x1000

theorem toNat_roundUp (n : BitVec 64) :
    (roundUp n).toNat = (n.toNat + 0xfff) % 2 ^ 64 / 0x1000 * 0x1000 := by
  have h : n + 0x1000 - 1 = n + 0xfff := by bv_omega
  rw [roundUp, h, BitVec.toNat_mul, BitVec.toNat_udiv, BitVec.toNat_add]
  simp only [BitVec.reduceToNat]
  omega

namespace E820Entry

variable (e : E820Entry)

/-- `rounded_block_start`. -/
def roundedBlockStart : BitVec 64 := roundUp e.addr

/-- `rounded_block_end`. -/
def roundedBlockEnd : BitVec 64 := roundUp (e.addr + e.len)

/-- `rounded_block_len`. -/
def roundedBlockLen : BitVec 64 := e.roundedBlockEnd - e.roundedBlockStart

/-- The entry's type is `STIVALE_MEMORY_AVAILABLE` and it does not start in low memory. -/
def Opened : Prop := e.type = 1 ∧ 0x100000 ≤ e.addr

instance : DecidablePred Opened := fun _ => inferInstanceAs (Decidable (_ ∧ _))

/-- The pages of the entry, as the loop of `pmm_memory_setup` visits them. -/
def pages : Finset ℕ :=
  Finset.Ico (e.roundedBlockStart / 0x1000).toNat
    ((e.roundedBlockStart / 0x1000).toNat + (e.roundedBlockLen / 0x1000).toNat)

theorem card_pages : e.pages.card = (e.roundedBlockLen / 0x1000).toNat := by
  simp [pages]

/-- The length that is counted is that of the pages. -/
theorem roundedBlockLen_eq : e.roundedBlockLen = BitVec.ofNat 64 (e.pages.card * 0x1000) := by
  apply BitVec.eq_of_toNat_eq
  rw [card_pages, BitVec.toNat_udiv, roundedBlockLen, BitVec.toNat_sub, BitVec.toNat_ofNat,
    roundedBlockEnd, roundedBlockStart, toNat_roundUp, toNat_roundUp]
  simp only [BitVec.reduceToNat]
  omega

end E820Entry

/-- The pages of the regions that are opened. -/
def regions (mmap : List E820Entry) : List (Finset ℕ) :=
  (mmap.filter fun e => decide e.Opened).map E820Entry.pages

/-- Number of pages the regions add up to. -/
def regionPages (mmap : List E820Entry) : ℕ := ((regions mmap).map Finset.card).sum

namespace Pmm

/-- The loop body of `pmm_memory_setup` for one entry. -/
def openEntry (p : Pmm) (e : E820Entry) : Pmm :=
  if e.Opened then
    { p.markFree (e.roundedBlockStart / 0x1000).toNat (e.roundedBlockLen / 0x1000).toNat with
      availableMemory := p.availableMemory + e.roundedBlockLen }
  else p

/-- What the loop over the memory map does. -/
structure OpenedAll (mmap : List E820Entry) (p p' : Pmm) : Prop where
  maxPage : p'.bitmapMaxPage = p.bitmapMaxPage
  usedMemory : p'.usedMemory = p.usedMemory
  available : p'.availableMemory = p.availableMemory + BitVec.ofNat 64 (regionPages mmap * 0x1000)
  used : ∀ q, p'.Used q ↔ p.Used q ∧ ∀ A ∈ regions mmap, q ∉ A

theorem openedAll_foldl (mmap : List E820Entry) (p : Pmm) :
    OpenedAll mmap p (mmap.foldl openEntry p) := by
  induction mmap generalizing p with
  | nil => exact ⟨rfl, rfl, by simp [regionPages, regions], by simp [regions]⟩
  | cons e mmap ih =>
    have h := ih (p.openEntry e)
    rw [List.foldl_cons]
    by_cases he : e.Opened
    · have hp : p.openEntry e = { p.markFree _ _ with
        availableMemory := p.availableMemory + e.roundedBlockLen } := if_pos he
      have hregions : regions (e :: mmap) = e.pages :: regions mmap := by simp [regions, he]
      rw [hp] at h ⊢
      refine ⟨h.maxPage, h.usedMemory, ?_, fun q => ?_⟩
      · rw [h.available, e.roundedBlockLen_eq, BitVec.add_assoc, ← BitVec.ofNat_add,
          ← Nat.add_mul, regionPages, regionPages, hregions, List.map_cons, List.sum_cons]
      · rw [h.used q, hregions, List.forall_mem_cons, ← and_assoc]
        refine and_congr_left fun _ => ?_
        refine (used_markFree (p := p)).trans ?_
        rw [E820Entry.pages, mem_Ico, and_comm]
    · have hp : p.openEntry e = p := if_neg he
      have hregions : regions (e :: mmap) = regions mmap := by simp [regions, he]
      rw [hp] at h ⊢
      exact ⟨h.maxPage, h.usedMemory, by rw [h.available, regionPages, regionPages, hregions],
        fun q => by rw [h.used q, hregions]⟩

end Pmm

/-- What `pmm_memory_setup` is given: the memory map and the addresses of the kernel and of the boot
loader's structure. -/
structure Boot where
  /-- The memory map, which has an entry. -/
  mmap : List E820Entry
  nonempty : mmap ≠ []
  /-- `bootloader_info` in the higher half. -/
  bootloaderInfo : BitVec 64
  /-- `__kernel_start`. -/
  kernelStart : BitVec 64
  /-- `__kernel_end`. -/
  kernelEnd : BitVec 64

namespace Boot

open Pmm

variable (b : Boot)

/-- The address of the bitmap: behind the kernel, or behind the boot loader's structure of 56 bytes.
-/
def bitmap : BitVec 64 :=
  let bitmap := (b.kernelEnd + 0x1000 - 1) &&& 0xFFFFFFFFFFFFF000
  if b.bootloaderInfo + 56 > bitmap then b.bootloaderInfo + 56 else bitmap

/-- `mem_length`: from the start of the first entry to the end of the last one. -/
def memLength : BitVec 64 :=
  let first := b.mmap.head b.nonempty
  let last := b.mmap.getLast b.nonempty
  roundUp ((last.addr + last.len) - first.addr)

/-- `bitmap_bytes`. -/
def bitmapBytes : BitVec 64 := (b.memLength / 0x1000 + 8 - 1) / 8

/-- `kernel_bitmap_start_page`. -/
def kernelBitmapStartPage : BitVec 64 := (b.kernelStart - 0xFFFFFFFF80000000) / 0x1000

/-- `kernel_bitmap_pages`. -/
def kernelBitmapPages : BitVec 64 :=
  ((b.bitmap + b.bitmapBytes) - b.kernelStart + 0x1000 - 1) / 0x1000

theorem toNat_bitmapBytes_mul : (b.bitmapBytes * 8).toNat = b.bitmapBytes.toNat * 8 ∧
    b.bitmapBytes.toNat * 8 ≤ 2 ^ 52 := by
  have h : b.memLength / 0x1000 + 8 - 1 = b.memLength / 0x1000 + 7 := by bv_omega
  have hbytes : b.bitmapBytes.toNat = (b.memLength.toNat / 0x1000 + 7) / 8 := by
    rw [bitmapBytes, h, BitVec.toNat_udiv, BitVec.toNat_add, BitVec.toNat_udiv]
    simp only [BitVec.reduceToNat]
    omega
  rw [BitVec.toNat_mul, hbytes]
  simp only [BitVec.reduceToNat]
  omega

/-- The manager after `memset`: every page is marked, and nothing is counted.  `memory` stays behind
the bitmap. -/
def cleared (memory : Bitmap) : Pmm where
  bitmap := fun k => if k < b.bitmapBytes.toNat then 0xFF else memory k
  bitmapMaxPage := (b.bitmapBytes * 8).toNat
  usedMemory := 0
  availableMemory := 0
  maxPage_le := b.toNat_bitmapBytes_mul.1 ▸ b.toNat_bitmapBytes_mul.2

/-- `pmm_memory_setup` up to the marking of the kernel: the manager and `total_memory`. -/
def pmmMemorySetup (memory : Bitmap) : Pmm × BitVec 64 :=
  let p := b.mmap.foldl openEntry (b.cleared memory)
  let totalMemory := p.availableMemory
  (p.markUsed b.kernelBitmapStartPage.toNat b.kernelBitmapPages.toNat, totalMemory)

/-! ### The marked pages -/

/-- The pages of the kernel and the bitmap. -/
def kernelPages : Finset ℕ :=
  Finset.Ico b.kernelBitmapStartPage.toNat
    (b.kernelBitmapStartPage.toNat + b.kernelBitmapPages.toNat)

/-- `bitmap_max_page`. -/
def bitmapMaxPage : ℕ := (b.bitmapBytes * 8).toNat

variable {b} {memory : Bitmap}

theorem used_cleared {q : ℕ} (hq : q < b.bitmapMaxPage) : (b.cleared memory).Used q := by
  rw [bitmapMaxPage, b.toNat_bitmapBytes_mul.1] at hq
  have hbyte : (b.cleared memory).bitmap (q / 8) = 0xFF := if_pos (by omega)
  have hbit : q % 8 < 8 := Nat.mod_lt _ (by decide)
  rw [Used, pmmGetBit, testBit_eq, hbyte]
  generalize q % 8 = i at hbit
  revert i
  decide

theorem openedAll (b : Boot) (memory : Bitmap) :
    OpenedAll b.mmap (b.cleared memory) (b.mmap.foldl openEntry (b.cleared memory)) :=
  openedAll_foldl _ _

@[simp] theorem pmmMemorySetup_maxPage :
    (b.pmmMemorySetup memory).1.bitmapMaxPage = b.bitmapMaxPage :=
  (b.openedAll memory).maxPage

theorem pmmMemorySetup_usedMemory : (b.pmmMemorySetup memory).1.usedMemory = 0 :=
  (b.openedAll memory).usedMemory

theorem pmmMemorySetup_available : (b.pmmMemorySetup memory).1.availableMemory =
    BitVec.ofNat 64 (regionPages b.mmap * 0x1000) := by
  refine (b.openedAll memory).available.trans ?_
  exact BitVec.zero_add _

theorem pmmMemorySetup_total : (b.pmmMemorySetup memory).2 =
    (b.pmmMemorySetup memory).1.availableMemory := rfl

/-- After the setup a page is marked unless it lies in an open region, and neither in the kernel
nor in the bitmap. -/
theorem used_pmmMemorySetup {q : ℕ} (hq : q < b.bitmapMaxPage) :
    (b.pmmMemorySetup memory).1.Used q ↔ q ∈ b.kernelPages ∨ ∀ A ∈ regions b.mmap, q ∉ A := by
  refine used_markUsed.trans ?_
  rw [(b.openedAll memory).used q, kernelPages, mem_Ico]
  simp only [used_cleared hq, true_and]

theorem zeros_pmmMemorySetup :
    (b.pmmMemorySetup memory).1.bitmap.zeros b.bitmapMaxPage =
      ((cover (regions b.mmap)).filter fun q =>
        q < b.bitmapMaxPage ∧ q ∉ b.kernelPages).card := by
  rw [zeros]
  congr 1
  ext q
  simp only [mem_filter, mem_range, mem_cover]
  rw [and_left_comm]
  refine and_congr_right fun hq => ?_
  have hfree : (b.pmmMemorySetup memory).1.bitmap.testBit q = false ↔
      ¬ (b.pmmMemorySetup memory).1.Used q := pmmGetBit_eq_false
  rw [hfree, used_pmmMemorySetup hq]
  simp only [not_or, not_forall, not_not, exists_prop]
  exact and_comm

/-- No page is counted that the bitmap does not show as free. -/
def Exact (b : Boot) : Prop :=
  (regions b.mmap).Pairwise Disjoint ∧
    ∀ A ∈ regions b.mmap, ∀ q ∈ A, q < b.bitmapMaxPage ∧ q ∉ b.kernelPages

theorem zeros_eq_iff : (b.pmmMemorySetup memory).1.bitmap.zeros b.bitmapMaxPage =
    regionPages b.mmap ↔ b.Exact := by
  rw [zeros_pmmMemorySetup]
  exact card_cover_eq_sum_iff _

/-! ### The counters -/

/-- The counters agree with the bitmap, the live blocks and each other. -/
structure Accounted (total : BitVec 64) (s : Pmm × List Block) : Prop where
  available : s.1.availableMemory.toNat = 0x1000 * s.1.bitmap.zeros s.1.bitmapMaxPage
  used : s.1.usedMemory.toNat = 0x1000 * livePages s.2
  total : s.1.availableMemory.toNat + s.1.usedMemory.toNat = total.toNat

/-- From right counters at the boot, they are right after every history. -/
theorem accounted_of_ledger {p0 : Pmm} {s : Pmm × List Block} {z : ℕ} (hz : z < 2 ^ 52)
    (havailable : p0.availableMemory = BitVec.ofNat 64 (z * 0x1000)) (hused : p0.usedMemory = 0)
    (hzeros : p0.bitmap.zeros p0.bitmapMaxPage = z) (hl : Ledger p0 s) :
    Accounted p0.availableMemory s := by
  obtain ⟨hmax, hav, hus⟩ := hl.balanced
  have hcount := hl.count
  have h0 := @count_add_zeros p0.bitmap p0.bitmapMaxPage
  have h1 := @count_add_zeros s.1.bitmap s.1.bitmapMaxPage
  rw [havailable] at hav ⊢
  rw [hused] at hus
  generalize p0.bitmap.count p0.bitmapMaxPage = c0 at *
  generalize s.1.bitmap.count s.1.bitmapMaxPage = c1 at *
  generalize hf : s.1.bitmap.zeros s.1.bitmapMaxPage = f at *
  -- in pages: `z` were free, the live blocks took some of them, and `f` are left
  have hleft : s.1.availableMemory = BitVec.ofNat 64 (f * 0x1000) := by
    have hc : (z * 0x1000 + c0 * 0x1000) = f * 0x1000 + c1 * 0x1000 := by omega
    rw [← BitVec.ofNat_add, hc, BitVec.ofNat_add] at hav
    exact ((BitVec.add_left_inj _).1 hav).symm
  have htaken : s.1.usedMemory = BitVec.ofNat 64 (livePages s.2 * 0x1000) := by
    rw [hcount, Nat.add_mul, BitVec.ofNat_add] at hus
    bv_omega
  have hleft' : s.1.availableMemory.toNat = f * 0x1000 := by
    rw [hleft, BitVec.toNat_ofNat, Nat.mod_eq_of_lt (by omega)]
  have htaken' : s.1.usedMemory.toNat = livePages s.2 * 0x1000 := by
    rw [htaken, BitVec.toNat_ofNat, Nat.mod_eq_of_lt (by omega)]
  refine ⟨by rw [hleft', hf, Nat.mul_comm], by rw [htaken', Nat.mul_comm], ?_⟩
  rw [hleft', htaken', BitVec.toNat_ofNat, Nat.mod_eq_of_lt (by omega)]
  omega

/-- After the setup the counters are right exactly when no page is counted wrongly. -/
theorem accounted_setup_iff (hsum : regionPages b.mmap * 0x1000 < 2 ^ 64) :
    Accounted (b.pmmMemorySetup memory).2 ((b.pmmMemorySetup memory).1, []) ↔ b.Exact := by
  have hleft : (b.pmmMemorySetup memory).1.availableMemory.toNat = regionPages b.mmap * 0x1000 := by
    rw [pmmMemorySetup_available, BitVec.toNat_ofNat, Nat.mod_eq_of_lt hsum]
  rw [← @zeros_eq_iff b memory]
  constructor
  · intro h
    have havailable := h.available
    rw [hleft, pmmMemorySetup_maxPage] at havailable
    dsimp only at havailable
    omega
  · intro h
    refine ⟨?_, ?_, ?_⟩
    · rw [hleft, pmmMemorySetup_maxPage, h, Nat.mul_comm]
    · rw [pmmMemorySetup_usedMemory]
      rfl
    · rw [pmmMemorySetup_usedMemory, pmmMemorySetup_total]
      rfl

/-- The rounded start of an open region does not wrap around to page `0`. -/
def NoWrap (b : Boot) : Prop := ∀ e ∈ b.mmap, e.Opened → e.addr.toNat + 0xfff < 2 ^ 64

/-- Low memory stays marked. -/
theorem NoWrap.used_zero (hb : b.NoWrap) (hmax : 0 < b.bitmapMaxPage) :
    (b.pmmMemorySetup memory).1.Used 0 := by
  refine (used_pmmMemorySetup hmax).2 (Or.inr fun A hA h0 => ?_)
  obtain ⟨e, he, rfl⟩ := List.mem_map.1 hA
  rw [List.mem_filter, decide_eq_true_eq] at he
  have hstart := hb e he.1 he.2
  have hlow : 0x100000 ≤ e.addr.toNat := BitVec.le_def.1 he.2.2
  rw [E820Entry.pages, mem_Ico, BitVec.toNat_udiv, E820Entry.roundedBlockStart, toNat_roundUp] at h0
  simp only [BitVec.reduceToNat] at h0
  omega

/-- Without a wrongly counted page the counters stay right. -/
theorem Exact.accounted (hexact : b.Exact) (hb : b.NoWrap) {s : Pmm × List Block}
    (h : History (b.pmmMemorySetup memory).1 s) : Accounted (b.pmmMemorySetup memory).2 s := by
  have hzeros := (@zeros_eq_iff b memory).2 hexact
  have hsum := @count_add_zeros (b.pmmMemorySetup memory).1.bitmap b.bitmapMaxPage
  have hle := (b.pmmMemorySetup memory).1.maxPage_le
  rw [pmmMemorySetup_maxPage] at hle
  rcases Nat.eq_zero_or_pos b.bitmapMaxPage with hmax | hmax
  · rw [history_of_maxPage_zero (pmmMemorySetup_maxPage.trans hmax) h]
    exact (accounted_setup_iff (by omega)).2 hexact
  · have hzero := @NoWrap.used_zero b memory hb hmax
    have hmarked : 0 < (b.pmmMemorySetup memory).1.bitmap.count b.bitmapMaxPage :=
      card_pos.2 ⟨0, mem_filter.2 ⟨mem_range.2 hmax, hzero⟩⟩
    have hl := ledger_of_history ⟨pmmMemorySetup_maxPage.symm ▸ hmax, hzero⟩ h
    have hlt : regionPages b.mmap < 2 ^ 52 := by omega
    rw [← @pmmMemorySetup_maxPage b memory] at hzeros
    exact @accounted_of_ledger (b.pmmMemorySetup memory).1 s (regionPages b.mmap) hlt
      pmmMemorySetup_available pmmMemorySetup_usedMemory hzeros hl

/-- **The counters of the memory manager.**  After the setup for a memory map whose regions do not
wrap, and after every sequence of `pmm_alloc` and `pmm_unalloc` of live blocks, `available_memory`
counts the clear bits, `used_memory` the pages of the live blocks, and both add up to
`total_memory`, if the open regions are disjoint, lie below `bitmap_max_page` and hold no page of
the kernel and the bitmap.  The condition is necessary when the lengths fit in 64 bits. -/
theorem accounted_iff (hb : b.NoWrap) :
    ((∀ s, History (b.pmmMemorySetup memory).1 s → Accounted (b.pmmMemorySetup memory).2 s) ∧
      regionPages b.mmap * 0x1000 < 2 ^ 64) ↔ b.Exact := by
  constructor
  · rintro ⟨h, hsum⟩
    exact (accounted_setup_iff hsum).1 (h _ Relation.ReflTransGen.refl)
  · intro hexact
    refine ⟨fun s h => hexact.accounted hb h, ?_⟩
    have hzeros := (@zeros_eq_iff b memory).2 hexact
    have h := (@Exact.accounted b memory hexact hb _ Relation.ReflTransGen.refl).available
    rw [pmmMemorySetup_maxPage, hzeros] at h
    omega

/-- The kernel at 1 MiB in a reserved region, and 16 available pages behind it. -/
def kernelReserved : Boot where
  mmap := [⟨0, 0x400000, 2⟩, ⟨0x400000, 0x10000, 1⟩]
  nonempty := by decide
  bootloaderInfo := 0xFFFF800000080000
  kernelStart := 0xFFFFFFFF80100000
  kernelEnd := 0xFFFFFFFF80110000

/-- The counters stay right when the kernel and the bitmap lie outside of the available memory. -/
theorem accounted_kernelReserved : kernelReserved.NoWrap ∧ kernelReserved.Exact ∧
    ∀ s, History (kernelReserved.pmmMemorySetup fun _ => 0).1 s →
      Accounted (kernelReserved.pmmMemorySetup fun _ => 0).2 s := by
  have hwrap : kernelReserved.NoWrap := by unfold NoWrap; decide
  have hexact : kernelReserved.Exact := by unfold Exact; decide
  exact ⟨hwrap, hexact, ((accounted_iff hwrap).2 hexact).1⟩

/-- The kernel at 1 MiB in an available region, as it is loaded. -/
def kernelAvailable : Boot where
  mmap := [⟨0, 0x100000, 2⟩, ⟨0x100000, 0x10000, 1⟩]
  nonempty := by decide
  bootloaderInfo := 0xFFFF800000080000
  kernelStart := 0xFFFFFFFF80100000
  kernelEnd := 0xFFFFFFFF80102000

/-- After the setup `available_memory` counts the pages of the kernel and the bitmap. -/
theorem not_accounted_kernelAvailable :
    History (kernelAvailable.pmmMemorySetup fun _ => 0).1
      ((kernelAvailable.pmmMemorySetup fun _ => 0).1, []) ∧
    ¬ Accounted (kernelAvailable.pmmMemorySetup fun _ => 0).2
      ((kernelAvailable.pmmMemorySetup fun _ => 0).1, []) := by
  refine ⟨Relation.ReflTransGen.refl, ?_⟩
  rw [accounted_setup_iff (by decide)]
  intro h
  have hregion : kernelAvailable.mmap[1].pages ∈ regions kernelAvailable.mmap := by decide
  exact (h.2 _ hregion 0x100 (by decide)).2 (by decide)

end Boot

end DripOS
