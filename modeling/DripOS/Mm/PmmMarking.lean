import DripOS.Mm.PmmSetup

/-!
# The pages that are free after the boot

Which pages `pmm_memory_setup` of `src/mm/pmm.c` leaves free.  Both ends of an entry are rounded up,
so that a page which begins in an available entry is opened even if the entry ends inside of it, and
a page is looked up by its number while the bitmap is as long as the memory behind the first entry.

* `E820Entry.mem_pages` : the pages of an entry are those whose first byte is in it;
* `Boot.Linked.mem_kernelPages` : the pages of the kernel and the bitmap are those they touch;
* `Boot.markedRight_iff` : **the pages are marked right** exactly when no open entry ends inside of
  a page whose rest is not open, and the bitmap covers the open entries and the kernel.
-/

namespace DripOS

open Nat

namespace E820Entry

/-- The address behind the entry. -/
def stop (e : E820Entry) : ℕ := e.addr.toNat + e.len.toNat

/-- A byte of the entry. -/
def Has (e : E820Entry) (x : ℕ) : Prop := e.addr.toNat ≤ x ∧ x < e.stop

instance (e : E820Entry) (x : ℕ) : Decidable (e.Has x) := inferInstanceAs (Decidable (_ ∧ _))

variable {e : E820Entry} {q : ℕ}

/-- An end in the last page of the address space is rounded to `0`. -/
theorem roundUp_top {n : ℕ} (hle : n ≤ 2 ^ 64) (htop : 2 ^ 64 ≤ n + 0xfff) :
    (n % 2 ^ 64 + 0xfff) % 2 ^ 64 / 0x1000 * 0x1000 = 0 := by
  have hsmall : (n % 2 ^ 64 + 0xfff) % 2 ^ 64 < 0x1000 := by
    rcases Nat.lt_or_eq_of_le hle with hlt | heq
    · rw [mod_eq_of_lt hlt, mod_eq_sub_mod htop]
      exact (mod_le _ _).trans_lt (by omega)
    · rw [heq, mod_self]
      decide
  rw [div_eq_of_lt hsmall, Nat.zero_mul]

/-- The loop visits the pages whose first byte is in the entry.  An end in the last page is rounded
to `0`, and the length is right again. -/
theorem mem_pages (hopen : e.Opened) (hstop : e.stop ≤ 2 ^ 64) :
    q ∈ e.pages ↔ e.Has (q * 0x1000) := by
  have hlow : 0x100000 ≤ e.addr.toNat := BitVec.le_def.1 hopen.2
  unfold stop at hstop
  unfold Has stop
  rw [pages, Finset.mem_Ico, BitVec.toNat_udiv, BitVec.toNat_udiv, roundedBlockLen,
    BitVec.toNat_sub, roundedBlockEnd, roundedBlockStart, toNat_roundUp, toNat_roundUp,
    BitVec.toNat_add]
  simp only [BitVec.reduceToNat]
  generalize e.addr.toNat = a at *
  generalize e.len.toNat = l at *
  by_cases htop : a + l + 0xfff < 2 ^ 64
  · have hstart : (a + 0xfff) % 2 ^ 64 = a + 0xfff := by omega
    omega
  · rw [roundUp_top hstop (by omega)]
    by_cases hstart : a + 0xfff < 2 ^ 64
    · have hstart' : (a + 0xfff) % 2 ^ 64 = a + 0xfff := by omega
      omega
    · have hwrap := @roundUp_top a (by omega) (by omega)
      omega

end E820Entry

namespace Boot

variable {b : Boot} {memory : Bitmap} {q : ℕ}

/-! ### The specification -/

/-- What `linker.ld` says: the kernel begins at 1 MiB, and ends with a page. -/
structure Linked (b : Boot) : Prop where
  start : b.kernelStart = 0xFFFFFFFF80100000
  lt : 0xFFFFFFFF80100000 < b.kernelEnd.toNat
  aligned : b.kernelEnd.toNat % 0x1000 = 0

/-- The address of the kernel in memory. -/
def kernelAddr (b : Boot) : ℕ := (b.kernelStart - 0xFFFFFFFF80000000).toNat

/-- `kernel_bitmap_len`. -/
def kernelBitmapLen (b : Boot) : BitVec 64 := b.bitmap + b.bitmapBytes - b.kernelStart

/-- A byte of the kernel or the bitmap. -/
def KernelHas (b : Boot) (x : ℕ) : Prop :=
  b.kernelAddr ≤ x ∧ x < b.kernelAddr + b.kernelBitmapLen.toNat

/-- A byte of the page. -/
def OnPage (q x : ℕ) : Prop := q * 0x1000 ≤ x ∧ x < (q + 1) * 0x1000

/-- A byte of an available entry above low memory. -/
def OpenByte (b : Boot) (x : ℕ) : Prop := ∃ e ∈ b.mmap, e.Opened ∧ e.Has x

/-- The bits that are written by the two loops. -/
def Written (b : Boot) (q : ℕ) : Prop := (∃ e ∈ b.mmap, e.Opened ∧ q ∈ e.pages) ∨ q ∈ b.kernelPages

/-- **The pages are marked right.** -/
structure MarkedRight (b : Boot) (memory : Bitmap) : Prop where
  /-- A free page has only open bytes, and none of the kernel and the bitmap. -/
  of_free : ∀ q < b.bitmapMaxPage, ¬ (b.pmmMemorySetup memory).1.Used q →
    ∀ x, OnPage q x → b.OpenByte x ∧ ¬ b.KernelHas x
  /-- A page inside of an open entry, outside of the kernel and the bitmap, is free. -/
  free : ∀ e ∈ b.mmap, e.Opened → ∀ q, (∀ x, OnPage q x → e.Has x ∧ ¬ b.KernelHas x) →
    q < b.bitmapMaxPage ∧ ¬ (b.pmmMemorySetup memory).1.Used q
  /-- The bits that are written are in the bitmap. -/
  written : ∀ q, b.Written q → q < b.bitmapBytes.toNat * 8

/-- **When the pages are marked right.**  An open entry ends with a page, or the page it ends in is
one of the kernel's, or begins before the entry, or its rest is open, too; and the bitmap covers the
open entries, the kernel and itself. -/
structure MapFits (b : Boot) : Prop where
  ends : ∀ e ∈ b.mmap, e.Opened → e.Has (e.stop / 0x1000 * 0x1000) →
    (∃ x, OnPage (e.stop / 0x1000) x ∧ b.KernelHas x) ∨
      ∀ x, e.stop ≤ x → OnPage (e.stop / 0x1000) x → b.OpenByte x
  covers : ∀ e ∈ b.mmap, e.Opened → e.Has ((e.stop - 1) / 0x1000 * 0x1000) →
    e.stop ≤ b.bitmapBytes.toNat * 8 * 0x1000
  kernel : b.kernelAddr + b.kernelBitmapLen.toNat ≤ b.bitmapBytes.toNat * 8 * 0x1000

/-! ### The pages of the kernel and the bitmap -/

theorem Linked.kernelAddr (h : b.Linked) : b.kernelAddr = 0x100000 := by
  rw [Boot.kernelAddr, h.start]
  rfl

theorem Linked.lt_bitmap (h : b.Linked) : 0xFFFFFFFF80100000 < b.bitmap.toNat := by
  have hround : (b.kernelEnd + 0x1000 - 1) &&& 0xFFFFFFFFFFFFF000 = b.kernelEnd := by
    have haligned := h.aligned
    have hadd : b.kernelEnd + 0x1000 - 1 = b.kernelEnd + 0xfff := by bv_omega
    apply BitVec.eq_of_toNat_eq
    rw [hadd, BitVec.toNat_and, BitVec.toNat_add]
    simp only [BitVec.reduceToNat]
    rw [Bits.and_pageMask]
    omega
  have hlt := h.lt
  unfold bitmap
  rw [hround]
  dsimp only
  split_ifs with hinfo
  · have hlt := BitVec.lt_def.1 hinfo
    omega
  · exact hlt

theorem Linked.kernelBitmapLen_lt (h : b.Linked) :
    0 < b.kernelBitmapLen.toNat ∧ b.kernelBitmapLen.toNat < 2 ^ 63 := by
  have hbitmap := h.lt_bitmap
  have hbytes := b.toNat_bitmapBytes_mul.2
  rw [kernelBitmapLen, h.start, BitVec.toNat_sub, BitVec.toNat_add]
  simp only [BitVec.reduceToNat]
  omega

theorem Linked.kernelPages_eq (h : b.Linked) :
    b.kernelPages = Finset.Ico 0x100 (0x100 + (b.kernelBitmapLen.toNat + 0xfff) / 0x1000) := by
  have hlen := h.kernelBitmapLen_lt.2
  have hpages : b.kernelBitmapPages.toNat = (b.kernelBitmapLen.toNat + 0xfff) / 0x1000 := by
    have hadd : b.kernelBitmapLen + 0x1000 - 1 = b.kernelBitmapLen + 0xfff := by bv_omega
    rw [kernelBitmapPages, ← kernelBitmapLen, hadd, BitVec.toNat_udiv, BitVec.toNat_add]
    simp only [BitVec.reduceToNat]
    omega
  have hstart : b.kernelBitmapStartPage.toNat = 0x100 := by
    rw [kernelBitmapStartPage, h.start]
    rfl
  rw [kernelPages, hpages, hstart]

/-- The kernel begins with a page, so that its pages are those it touches. -/
theorem Linked.mem_kernelPages (h : b.Linked) :
    q ∈ b.kernelPages ↔ ∃ x, OnPage q x ∧ b.KernelHas x := by
  unfold OnPage KernelHas
  rw [h.kernelPages_eq, Finset.mem_Ico, h.kernelAddr]
  generalize b.kernelBitmapLen.toNat = len
  constructor
  · intro hq
    exact ⟨q * 0x1000, by omega⟩
  · rintro ⟨x, hpage, hkernel⟩
    omega

/-! ### The marked pages -/

theorem bitmapMaxPage_eq : b.bitmapMaxPage = b.bitmapBytes.toNat * 8 := b.toNat_bitmapBytes_mul.1

/-- A page is free when it is open, and not one of the kernel's. -/
theorem free_iff (hq : q < b.bitmapMaxPage) : ¬ (b.pmmMemorySetup memory).1.Used q ↔
    q ∉ b.kernelPages ∧ ∃ e ∈ b.mmap, e.Opened ∧ q ∈ e.pages := by
  rw [used_pmmMemorySetup hq, not_or]
  refine and_congr_right fun _ => ?_
  rw [regions, List.forall_mem_map, List.forall_mem_filter]
  simp only [decide_eq_true_eq, not_forall, not_not, exists_prop]

/-- Only the page in which an entry ends may have other bytes. -/
theorem has_of_onPage {e : E820Entry} {x : ℕ} (hmem : e.Has (q * 0x1000)) (hx : OnPage q x) :
    e.Has x ∨ q = e.stop / 0x1000 ∧ e.stop ≤ x := by
  unfold E820Entry.Has OnPage at *
  omega

/-- An entry in which a page begins has the beginning of its last page. -/
theorem has_last {e : E820Entry} (hmem : e.Has (q * 0x1000)) :
    e.Has ((e.stop - 1) / 0x1000 * 0x1000) := by
  obtain ⟨hbegin, hend⟩ := hmem
  have hle : q * 0x1000 ≤ (e.stop - 1) / 0x1000 * 0x1000 :=
    Nat.mul_le_mul_right _ ((Nat.le_div_iff_mul_le (succ_pos _)).2 (le_pred_of_lt hend))
  have hlast : (e.stop - 1) / 0x1000 * 0x1000 ≤ e.stop - 1 := div_mul_le_self _ _
  exact ⟨hbegin.trans hle, hlast.trans_lt (Nat.sub_one_lt (Nat.ne_zero_of_lt hend))⟩

/-- **Which pages are free after the boot.**  For entries that are ranges of 64-bit addresses, and
the kernel as it is linked, the pages are marked right exactly under `MapFits`. -/
theorem markedRight_iff (b : Boot) (memory : Bitmap) (hlinked : b.Linked)
    (hstop : ∀ e ∈ b.mmap, e.stop ≤ 2 ^ 64) : b.MarkedRight memory ↔ b.MapFits := by
  have hlen := hlinked.kernelBitmapLen_lt.1
  constructor
  · intro h
    refine ⟨fun e he hopen hlast => ?_, fun e he hopen hlast => ?_, ?_⟩
    · -- the page in which the entry ends is opened
      have hmem := (E820Entry.mem_pages hopen (hstop e he)).2 hlast
      have hlt := h.written _ (Or.inl ⟨e, he, hopen, hmem⟩)
      rw [← bitmapMaxPage_eq] at hlt
      by_cases hkernel : e.stop / 0x1000 ∈ b.kernelPages
      · exact Or.inl (hlinked.mem_kernelPages.1 hkernel)
      · refine Or.inr fun x _ hx => ?_
        exact (h.of_free _ hlt ((free_iff hlt).2 ⟨hkernel, e, he, hopen, hmem⟩) x hx).1
    · have hmem := (E820Entry.mem_pages hopen (hstop e he)).2 hlast
      have hlt := h.written _ (Or.inl ⟨e, he, hopen, hmem⟩)
      omega
    · -- the page of the last byte of the bitmap
      have hlast := h.written ((b.kernelAddr + b.kernelBitmapLen.toNat - 1) / 0x1000)
        (Or.inr (hlinked.mem_kernelPages.2 ⟨b.kernelAddr + b.kernelBitmapLen.toNat - 1,
          ⟨by omega, by omega⟩, ⟨by omega, by omega⟩⟩))
      omega
  · intro h
    have hwritten : ∀ q, b.Written q → q < b.bitmapBytes.toNat * 8 := by
      rintro q (⟨e, he, hopen, hmem⟩ | hmem)
      · have hfirst := (E820Entry.mem_pages hopen (hstop e he)).1 hmem
        have hcover := h.covers e he hopen (has_last hfirst)
        have hlt := hfirst.2
        omega
      · obtain ⟨x, hx, hkernel⟩ := hlinked.mem_kernelPages.1 hmem
        have hcover := h.kernel
        have hbegin := hx.1
        have hlt := hkernel.2
        omega
    refine ⟨fun q hq hfree x hx => ?_, fun e he hopen q hinside => ?_, hwritten⟩
    · obtain ⟨hkernel, e, he, hopen, hmem⟩ := (free_iff hq).1 hfree
      have hnot : ¬ b.KernelHas x := fun hhas => hkernel (hlinked.mem_kernelPages.2 ⟨x, hx, hhas⟩)
      refine ⟨?_, hnot⟩
      have hfirst := (E820Entry.mem_pages hopen (hstop e he)).1 hmem
      rcases has_of_onPage hfirst hx with hhas | ⟨rfl, hbehind⟩
      · exact ⟨e, he, hopen, hhas⟩
      · rcases h.ends e he hopen hfirst with htouch | hrest
        · exact absurd (hlinked.mem_kernelPages.2 htouch) hkernel
        · exact hrest x hbehind hx
    · have hmem := (E820Entry.mem_pages hopen (hstop e he)).2
        (hinside (q * 0x1000) ⟨Nat.le_refl _, by omega⟩).1
      have hlt := hwritten q (Or.inl ⟨e, he, hopen, hmem⟩)
      rw [← bitmapMaxPage_eq] at hlt
      have hkernel : q ∉ b.kernelPages := by
        intro hq
        obtain ⟨x, hx, hhas⟩ := hlinked.mem_kernelPages.1 hq
        exact (hinside x hx).2 hhas
      exact ⟨hlt, (free_iff hlt).2 ⟨hkernel, e, he, hopen, hmem⟩⟩

/-- With 16 available pages and a reserved kernel, the pages are marked right. -/
theorem markedRight_iff_kernelReserved :
    kernelReserved.Linked ∧ (∀ e ∈ kernelReserved.mmap, e.stop ≤ 2 ^ 64) ∧
      kernelReserved.MarkedRight fun _ => 0 := by
  have hlinked : kernelReserved.Linked := ⟨rfl, by decide, by decide⟩
  have hstop : ∀ e ∈ kernelReserved.mmap, e.stop ≤ 2 ^ 64 := by decide
  refine ⟨hlinked, hstop, (markedRight_iff kernelReserved _ hlinked hstop).2 ⟨?_, ?_, ?_⟩⟩
  · -- the available region ends with a page
    have hends : ∀ e ∈ kernelReserved.mmap, e.Opened → ¬ e.Has (e.stop / 0x1000 * 0x1000) := by
      decide
    exact fun e he hopen hlast => absurd hlast (hends e he hopen)
  · decide
  · decide

/-- An available region that ends in the middle of the page `0x110`. -/
def sharedPage : Boot where
  mmap := [⟨0, 0x100000, 2⟩, ⟨0x100000, 0x10800, 1⟩, ⟨0x110800, 0x800, 2⟩]
  nonempty := by decide
  bootloaderInfo := 0xFFFF800000080000
  kernelStart := 0xFFFFFFFF80100000
  kernelEnd := 0xFFFFFFFF80102000

/-- The shared page is free, although a byte of it is reserved. -/
theorem not_markedRight_sharedPage :
    sharedPage.Linked ∧ sharedPage.mmap.Pairwise (fun e e' => e.stop ≤ e'.addr.toNat) ∧
      ¬ (sharedPage.pmmMemorySetup fun _ => 0).1.Used 0x110 ∧ ¬ sharedPage.OpenByte 0x110800 ∧
      ¬ sharedPage.MarkedRight fun _ => 0 := by
  have hlt : 0x110 < sharedPage.bitmapMaxPage := by decide
  have hfree : ¬ (sharedPage.pmmMemorySetup fun _ => 0).1.Used 0x110 :=
    (free_iff hlt).2 ⟨by decide, ⟨0x100000, 0x10800, 1⟩, by decide, by decide, by decide⟩
  have hbyte : ¬ sharedPage.OpenByte 0x110800 := by
    unfold OpenByte
    decide
  refine ⟨⟨rfl, by decide, by decide⟩, by decide, hfree, hbyte, fun h => ?_⟩
  exact hbyte (h.of_free 0x110 hlt hfree 0x110800 ⟨by decide, by decide⟩).1

end Boot

end DripOS
