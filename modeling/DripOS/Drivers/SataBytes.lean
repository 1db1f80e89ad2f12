import DripOS.Lib.Bits
import DripOS.Lib.Bytes
import DripOS.Mm.PmmHistory

/-!
# Bytes of a SATA drive

`ahci_read_sata_bytes` and `ahci_write_sata_bytes` of `src/drivers/pci_drivers/ahci.c` transfer a
range of bytes over a buffer of whole sectors.  To write, the first and the last sector are read
first.  `io` has the results of the calls of `ahci_io_sata_sectors`, which fail without an effect;
an access behind the pages of the buffer is a fault.

* `Sata.bytes_correct_iff` : **when the bytes of the range are transferred, and no other ones**.
-/

namespace DripOS

open Nat Pmm Bytes

namespace Sata

variable (size seek count : ℕ)

/-- `sector_start`. -/
def sectorStart : ℕ := seek / size

/-- `sector_end`, in 64-bit arithmetic. -/
def sectorEnd : ℕ := (seek + count + size - 1) % 2 ^ 64 / size

/-- `sector_count`, in 64-bit arithmetic. -/
def sectorCount : ℕ := sub64 (sectorEnd size seek count) (sectorStart size seek)

/-- The size of the buffer in 64-bit arithmetic. -/
def bufferSize : ℕ := sectorCount size seek count * size % 2 ^ 64

/-- The bytes of the pages of the buffer. -/
def bufferBytes : ℕ := pagesOf (bufferSize size seek count) * 0x1000

/-- An access to the buffer up to the offset `e` stays in its pages. -/
def access (e : ℕ) : Except Halt Unit :=
  if e ≤ bufferBytes size seek count then .ok () else .error .fault

/-- The checks of the number of sectors, and the buffer around a transfer. -/
def withBuffer {α : Type} (p : Pmm) (skip : α) (transfer : Except Halt (ℕ × α)) :
    Except Halt (ℕ × α × Pmm) :=
  if sectorCount size seek count > 0xFFFF then .ok (5, skip, p)
  else if sectorCount size seek count = 0 then .ok (6, skip, p)
  else do
    let (dataBuf, p) ← p.pmmAlloc (bufferSize size seek count)
    let (err, result) ← transfer
    let p ← p.pmmUnalloc dataBuf (bufferSize size seek count)
    pure (err, result, p)

/-- The transfer of `ahci_read_sata_bytes`. -/
def readTransfer (disk buf : Bytes) (io : ℕ → ℕ) : Except Halt (ℕ × Bytes) :=
  if io 0 ≠ 0 then .ok (io 0, buf)
  else do
    access size seek count (sectorCount size seek count * size)
    access size seek count (seek % size + count)
    let data := disk.slice (sectorStart size seek * size) (sectorCount size seek count * size)
    .ok (0, buf.patch 0 count fun i => data (seek % size + i))

/-- `ahci_read_sata_bytes`: its result, and the contents of `buf`. -/
def ahciReadSataBytes (p : Pmm) (disk buf : Bytes) (io : ℕ → ℕ) : Except Halt (ℕ × Bytes × Pmm) :=
  withBuffer size seek count p buf (readTransfer size seek count disk buf io)

/-- The transfers of `ahci_write_sata_bytes`. -/
def writeTransfer (disk buf old : Bytes) (io : ℕ → ℕ) : Except Halt (ℕ × Bytes) :=
  if io 0 ≠ 0 then .ok (io 0, disk)
  else do
    access size seek count size
    if io 1 ≠ 0 then return (io 1, disk)
    access size seek count (sectorCount size seek count * size)
    access size seek count (seek % size + count)
    if io 2 ≠ 0 then return (io 2, disk)
    let first := old.patch 0 size (disk.slice (sectorStart size seek * size) size)
    let ends := first.patch ((sectorCount size seek count - 1) * size) size
      (disk.slice (sub64 (sectorEnd size seek count) 1 * size) size)
    let data := ends.patch (seek % size) count buf
    .ok (0, disk.patch (sectorStart size seek * size) (sectorCount size seek count * size) data)

/-- `ahci_write_sata_bytes`: its result, and the contents of the drive. -/
def ahciWriteSataBytes (p : Pmm) (disk buf old : Bytes) (io : ℕ → ℕ) :
    Except Halt (ℕ × Bytes × Pmm) :=
  withBuffer size seek count p disk (writeTransfer size seek count disk buf old io)

/-- One of the checks of the number of sectors fails. -/
def Rejects : Prop := sectorCount size seek count > 0xFFFF ∨ sectorCount size seek count = 0

/-- The sectors cover the range, and the pages of the buffer the sectors. -/
def Fits : Prop :=
  (size = 1 ∨ seek + count < 2 ^ 64) ∧ sectorCount size seek count * size + 0xFFF < 2 ^ 64

instance : Decidable (Fits size seek count) := inferInstanceAs (Decidable (_ ∧ _))

variable {size seek count}

/-! ### The sectors of a range -/

theorem sectorEnd_lt (size seek count : ℕ) : sectorEnd size seek count < 2 ^ 64 :=
  (div_le_self _ _).trans_lt (mod_lt _ (by decide))

theorem le_bufferBytes (h : sectorCount size seek count * size + 0xFFF < 2 ^ 64) :
    sectorCount size seek count * size ≤ bufferBytes size seek count ∧
      bufferBytes size seek count ≤ sectorCount size seek count * size + 0xFFF := by
  have hbuf : bufferSize size seek count = sectorCount size seek count * size :=
    mod_eq_of_lt (by omega)
  rw [bufferBytes, hbuf, pagesOf_eq h]
  omega

section

variable (hsize : 0 < size) (hseek : seek < 2 ^ 64)
include hsize hseek

/-- With sectors of more than one byte, the number of sectors does not wrap around. -/
theorem sectorEnd_eq (hone : size ≠ 1) (hle : sectorCount size seek count ≤ 0xFFFF) :
    sectorEnd size seek count = sectorStart size seek + sectorCount size seek count := by
  have htwo : sectorStart size seek * 2 ≤ seek :=
    (Nat.mul_le_mul_left _ (by omega)).trans (div_mul_le_self seek size)
  have hend := sectorEnd_lt size seek count
  unfold sectorCount sub64 at hle ⊢
  omega

/-- The sectors of a range that passes the checks. -/
theorem sector_range (hsize' : size < 2 ^ 64) (hcount : count < 2 ^ 64)
    (hsum : size = 1 ∨ seek + count < 2 ^ 64) (hrej : ¬ Rejects size seek count) :
    ∃ n, sectorCount size seek count = n + 1 ∧
      (size = 1 ∨ sub64 (sectorEnd size seek count) 1 = sectorStart size seek + n) ∧
      seek % size + count ≤ n * size + size ∧ n * size < seek % size + count := by
  obtain ⟨hle, hpos⟩ := not_or.1 hrej
  obtain ⟨n, hn⟩ := exists_eq_succ_of_ne_zero hpos
  refine ⟨n, hn, ?_⟩
  by_cases hone : size = 1
  · subst hone
    have hall : sectorCount 1 seek count = count := by
      unfold sectorCount sectorEnd sectorStart sub64
      omega
    exact ⟨.inl rfl, by omega, by omega⟩
  · have hend := sectorEnd_eq hsize hseek hone (Nat.not_lt.1 hle)
    have hlo := div_add_mod ((seek + count + size - 1) % 2 ^ 64) size
    have hmod := mod_lt ((seek + count + size - 1) % 2 ^ 64) hsize
    have hstart := div_add_mod seek size
    rw [hn] at hend
    rw [← sectorEnd, hend, Nat.mul_comm, Nat.add_mul, succ_mul] at hlo
    rw [Nat.mul_comm, ← sectorStart] at hstart
    refine ⟨.inr ?_, by omega, by omega⟩
    rw [sub64_eq (by omega) (sectorEnd_lt size seek count), hend]
    rfl

/-- A transfer inside of the buffer has a buffer that fits. -/
theorem fits_of_le (hsize' : size < 2 ^ 64) (hrej : ¬ Rejects size seek count)
    (hall : sectorCount size seek count * size ≤ bufferBytes size seek count)
    (hcopy : seek % size + count ≤ bufferBytes size seek count) : Fits size seek count := by
  obtain ⟨hle, hpos⟩ := not_or.1 hrej
  have hpages := pagesOf_lt (bufferSize size seek count)
  have hfit : sectorCount size seek count * size + 0xFFF < 2 ^ 64 := by
    unfold bufferBytes at hall
    omega
  refine ⟨or_iff_not_imp_left.2 fun hone => ?_, hfit⟩
  have hbuf := (le_bufferBytes hfit).2
  have hend := sectorEnd_eq hsize hseek hone (Nat.not_lt.1 hle)
  have hlo : sectorEnd size seek count * size ≤ (seek + count + size - 1) % 2 ^ 64 :=
    div_mul_le_self _ _
  have hstart := div_add_mod seek size
  rw [Nat.mul_comm, ← sectorStart] at hstart
  have hone_le : size ≤ sectorCount size seek count * size := Nat.le_mul_of_pos_left size (by omega)
  rw [hend, Nat.add_mul] at hlo
  -- a sum that wraps around has too few sectors, by almost 2 ^ 64 bytes
  omega

end

/-! ### The two calls -/

theorem ensures_access_bind {α : Type} {e : ℕ} {k : Unit → Except Halt α} {Q : α → Prop} :
    EnsuresFree (access size seek count e >>= k) Q ↔
      e ≤ bufferBytes size seek count ∧ EnsuresFree (k ()) Q := by
  by_cases he : e ≤ bufferBytes size seek count
  · rw [access, if_pos he, ok_bind, and_iff_right he]
  · rw [access, if_neg he]
    refine iff_of_false (fun h => ?_) fun h => he h.1
    cases (show Halt.fault = Halt.noFreeMemory from h)

/-- The buffer is given back. -/
theorem ensures_withBuffer_iff {α : Type} {p : Pmm} {skip : α} {transfer : Except Halt (ℕ × α)}
    {Q : ℕ × α → Prop} (h0 : p.ZeroUsed) (hskip : ∀ err ≠ 0, Q (err, skip)) :
    EnsuresFree (withBuffer size seek count p skip transfer)
        (fun r => r.2.2 = p ∧ Q (r.1, r.2.1)) ↔
      Rejects size seek count ∨ (∀ a, ¬ p.Run a (pagesOf (bufferSize size seek count))) ∨
        EnsuresFree transfer Q := by
  by_cases hmany : sectorCount size seek count > 0xFFFF
  · rw [withBuffer, if_pos hmany]
    exact iff_of_true ⟨rfl, hskip 5 (by decide)⟩ (.inl (.inl hmany))
  by_cases hnone : sectorCount size seek count = 0
  · rw [withBuffer, if_neg hmany, if_pos hnone]
    exact iff_of_true ⟨rfl, hskip 6 (by decide)⟩ (.inl (.inr hnone))
  have hrej : ¬ Rejects size seek count := not_or.2 ⟨hmany, hnone⟩
  rw [or_iff_right hrej, withBuffer, if_neg hmany, if_neg hnone]
  have hspec := @pmmAlloc_spec p (bufferSize size seek count) (.inl h0)
  cases halloc : p.pmmAlloc (bufferSize size seek count) with
  | error e =>
    rw [halloc] at hspec
    exact iff_of_true hspec.1 (.inl hspec.2)
  | ok r =>
    obtain ⟨addr, p1⟩ := r
    obtain ⟨page, rfl, ha⟩ := hspec.of_ok halloc
    rw [or_iff_right fun h => h page ha.lowest.1, ok_bind]
    dsimp only
    cases transfer with
    | error e => exact Iff.rfl
    | ok result =>
      rw [ok_bind, ha.unalloc, ok_bind]
      exact and_iff_right rfl

section

variable {p : Pmm} {disk buf old : Bytes} {io : ℕ → ℕ} (hsize : 0 < size) (hsize' : size < 2 ^ 64)
  (hseek : seek < 2 ^ 64) (hcount : count < 2 ^ 64) (hrej : ¬ Rejects size seek count)
include hsize hsize' hseek hcount hrej

theorem ensures_read : EnsuresFree (readTransfer size seek count disk buf io)
      (fun r => r.1 = 0 → ∀ i < count, r.2 i = disk (seek + i)) ↔
      io 0 ≠ 0 ∨ Fits size seek count := by
  unfold readTransfer
  split_ifs with herr
  · exact iff_of_true (fun h => absurd h herr) (.inl herr)
  · rw [or_iff_right herr, ensures_access_bind, ensures_access_bind]
    refine ⟨fun ⟨hall, hcopy, _⟩ => fits_of_le hsize hseek hsize' hrej hall hcopy, fun hfit => ?_⟩
    obtain ⟨n, hn, -, hcover, -⟩ := sector_range hsize hseek hsize' hcount hfit.1 hrej
    have hall : sectorCount size seek count * size = n * size + size := by rw [hn, succ_mul]
    have hbuf := (le_bufferBytes hfit.2).1
    refine ⟨hbuf, by omega, fun _ i hi => ?_⟩
    have hi' : seek % size + i < sectorCount size seek count * size := by omega
    have hpatch (src : Bytes) : buf.patch 0 count src i = src i := by
      simpa using patch_add (b := buf) (o := 0) hi
    have hstart : sectorStart size seek * size + seek % size = seek := div_add_mod' seek size
    dsimp only
    rw [hpatch, slice_of_lt hi', ← Nat.add_assoc, hstart]

theorem ensures_write : EnsuresFree (writeTransfer size seek count disk buf old io)
      (fun r => r.2 = if r.1 = 0 then disk.patch seek count buf else disk) ↔
      io 0 ≠ 0 ∨ (io 1 ≠ 0 ∧ size ≤ bufferBytes size seek count) ∨ Fits size seek count := by
  unfold writeTransfer
  by_cases herr0 : io 0 ≠ 0
  · rw [if_pos herr0]
    exact iff_of_true (if_neg herr0).symm (.inl herr0)
  rw [if_neg herr0, or_iff_right herr0, ensures_access_bind]
  by_cases herr1 : io 1 ≠ 0
  · rw [if_pos herr1, and_iff_right herr1]
    exact ⟨fun h => .inl h.1, fun h => ⟨h.elim id fun hfit =>
      (Nat.le_mul_of_pos_left size (pos_of_ne_zero fun h => hrej (.inr h))).trans
        (le_bufferBytes hfit.2).1, (if_neg herr1).symm⟩⟩
  rw [if_neg herr1, or_iff_right fun h => herr1 h.1]
  refine ⟨fun ⟨_, h⟩ => ?_, fun hfit => ?_⟩
  · rw [ensures_access_bind, ensures_access_bind] at h
    exact fits_of_le hsize hseek hsize' hrej h.1 h.2.1
  · obtain ⟨n, hn, hlast, hcover, hused⟩ := sector_range hsize hseek hsize' hcount hfit.1 hrej
    have hall : sectorCount size seek count * size = n * size + size := by rw [hn, succ_mul]
    have hbuf := (le_bufferBytes hfit.2).1
    rw [ensures_access_bind, ensures_access_bind]
    refine ⟨by omega, hbuf, by omega, ?_⟩
    split_ifs with herr2
    · exact (if_neg herr2).symm
    · refine Eq.trans ?_ (if_pos rfl).symm
      have hstart : sectorStart size seek * size + seek % size = seek := div_add_mod' seek size
      have hmod := mod_lt seek hsize
      have hlastSector : size = 1 ∨ sub64 (sectorEnd size seek count) 1 * size =
          sectorStart size seek * size + n * size := hlast.imp_right fun h => by
        rw [h, Nat.add_mul]
      rw [hn, succ_mul, Nat.add_sub_cancel]
      have hone : size = 1 → n * size = n := fun h => by rw [h, Nat.mul_one]
      generalize sub64 (sectorEnd size seek count) 1 * size = last at *
      generalize n * size = l at *
      generalize sectorStart size seek * size = s at *
      funext i
      simp only [patch, slice]
      -- outside of the range, the bytes of the first and the last sector are those of the drive
      split_ifs <;> first | rfl | omega | exact congrArg _ (by omega)

end

/-- **The bytes of the range are transferred, and no other ones, exactly if** a check rejects the
range, no memory is free, the sectors and the buffer fit, or reading a sector fails. -/
theorem bytes_correct_iff (hsize : 0 < size ∧ size < 2 ^ 64) (hseek : seek < 2 ^ 64)
    (hcount : count < 2 ^ 64) {p : Pmm} (h₀ : 0 < p.bitmapMaxPage ∧ p.Used 0)
    (disk buf old : Bytes) (io : ℕ → ℕ) :
    (Ensures (· = Halt.noFreeMemory) (ahciReadSataBytes size seek count p disk buf io) (fun r =>
        r.2.2 = p ∧ (r.1 = 0 → ∀ i < count, r.2.1 i = disk (seek + i))) ↔
      Rejects size seek count ∨ (∀ a, ¬ p.Run a (pagesOf (bufferSize size seek count))) ∨
        io 0 ≠ 0 ∨ Fits size seek count) ∧
    (Ensures (· = Halt.noFreeMemory) (ahciWriteSataBytes size seek count p disk buf old io)
        (fun r => r.2.2 = p ∧ r.2.1 = if r.1 = 0 then disk.patch seek count buf else disk) ↔
      Rejects size seek count ∨ (∀ a, ¬ p.Run a (pagesOf (bufferSize size seek count))) ∨
        io 0 ≠ 0 ∨ (io 1 ≠ 0 ∧ size ≤ bufferBytes size seek count) ∨ Fits size seek count) := by
  refine ⟨?_, ?_⟩
  · refine (ensures_withBuffer_iff
      (Q := fun r : ℕ × Bytes => r.1 = 0 → ∀ i < count, r.2 i = disk (seek + i)) h₀
      fun err herr h => absurd h herr).trans (or_congr_right' fun hrej => or_congr_right ?_)
    exact ensures_read hsize.1 hsize.2 hseek hcount hrej
  · refine (ensures_withBuffer_iff
      (Q := fun r => r.2 = if r.1 = 0 then disk.patch seek count buf else disk) h₀
      fun err herr => (if_neg herr).symm).trans (or_congr_right' fun hrej => or_congr_right ?_)
    exact ensures_write hsize.1 hsize.2 hseek hcount hrej

theorem bytes_correct_sixteenPages :
    Ensures (· = Halt.noFreeMemory) (ahciReadSataBytes 512 100 1000 sixteenPages (fun _ => 7)
      (fun _ => 1) fun _ => 0) (fun r =>
        r.2.2 = sixteenPages ∧ (r.1 = 0 → ∀ i < 1000, r.2.1 i = 7)) ∧
    Ensures (· = Halt.noFreeMemory) (ahciWriteSataBytes 512 100 1000 sixteenPages (fun _ => 7)
      (fun _ => 1) (fun _ => 0) fun _ => 0) fun r => r.2.2 = sixteenPages ∧
        r.2.1 = if r.1 = 0 then patch (fun _ => 7) 100 1000 fun _ => 1 else fun _ => 7 :=
  have hfit : Fits 512 100 1000 := by decide
  have h := @bytes_correct_iff 512 100 1000 (by decide) (by decide) (by decide) sixteenPages
    (by decide) (fun _ => 7) (fun _ => 1) (fun _ => 0) fun _ => 0
  ⟨h.1.2 (.inr (.inr (.inr hfit))), h.2.2 (.inr (.inr (.inr (.inr hfit))))⟩

/-- A range that ends behind `2 ^ 64` passes the checks as one sector, and the copy goes on past the
buffer.  No page is allocated for a sector of `2 ^ 64 - 1` bytes. -/
theorem not_bytes_correct :
    ahciReadSataBytes 512 100 (2 ^ 64 - 50) sixteenPages (fun _ => 0) (fun _ => 0)
      (fun _ => 0) = .error .fault ∧
    ahciWriteSataBytes 512 100 (2 ^ 64 - 50) sixteenPages (fun _ => 0) (fun _ => 0) (fun _ => 0)
      (fun _ => 0) = .error .fault ∧
    ahciReadSataBytes (2 ^ 64 - 1) 0 1 sixteenPages (fun _ => 0) (fun _ => 0) (fun _ => 0) =
      .error .fault :=
  ⟨eq_error_of_stopReason (by decide +kernel), eq_error_of_stopReason (by decide +kernel),
    eq_error_of_stopReason (by decide +kernel)⟩

end Sata

end DripOS
