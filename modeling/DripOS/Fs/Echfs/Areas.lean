import DripOS.Fs.Echfs.Create

/-!
# The areas of a volume

The allocation table, the main directory and the data blocks lie one behind the other, and every
operation of the driver writes to one of them.  The block cache holds blocks of the table only, so
that the main directory may be written behind its back (`Echfs.Sound`).
-/

namespace DripOS

open Bytes

namespace Echfs

variable {fs fs' : Echfs} {b k : ℕ}

/-- The first block behind the main directory. -/
def dataStart (fs : Echfs) : ℕ := fs.mainDirBlock + fs.mainDirBlocks

/-- The blocks for the data of files. -/
def IsData (fs : Echfs) (b : ℕ) : Prop := fs.dataStart ≤ b ∧ b < fs.blocks

instance : Decidable (fs.IsData b) := inferInstanceAs (Decidable (_ ∧ _))

/-- A mounted volume whose cached blocks are blocks of the table. -/
structure Sound (fs : Echfs) : Prop where
  mounted : fs.Mounted
  tableCached : ∀ b d, fs.cachedBlocks.lookup b = some d → b < fs.mainDirBlock

/-- The fields that describe the areas are the same. -/
structure SameShape (fs fs' : Echfs) : Prop where
  blocks : fs'.blocks = fs.blocks
  blockSize : fs'.blockSize = fs.blockSize
  mainDirBlock : fs'.mainDirBlock = fs.mainDirBlock
  mainDirBlocks : fs'.mainDirBlocks = fs.mainDirBlocks

namespace SameShape

theorem refl : SameShape fs fs := ⟨rfl, rfl, rfl, rfl⟩

theorem trans {fs'' : Echfs} (h : SameShape fs fs') (h' : SameShape fs' fs'') : SameShape fs fs'' :=
  ⟨h'.blocks.trans h.blocks, h'.blockSize.trans h.blockSize,
    h'.mainDirBlock.trans h.mainDirBlock, h'.mainDirBlocks.trans h.mainDirBlocks⟩

theorem dirCount (h : SameShape fs fs') : fs'.dirCount = fs.dirCount := by
  unfold Echfs.dirCount
  rw [h.mainDirBlocks, h.blockSize]

theorem isData (h : SameShape fs fs') : fs'.IsData b ↔ fs.IsData b := by
  unfold IsData dataStart
  rw [h.blocks, h.mainDirBlock, h.mainDirBlocks]

theorem mounted (h : SameShape fs fs') (hm : fs.Mounted) (hc : fs'.Coherent) : fs'.Mounted := by
  refine ⟨hm.addressable.of_eq h.blocks h.blockSize, hc, ?_, ?_⟩
  · rw [h.blocks, h.blockSize, h.mainDirBlock]
    exact hm.mainDir
  · rw [h.mainDirBlock, h.mainDirBlocks, h.blockSize]
    exact hm.fits

end SameShape

/-- The same volume with another block cache. -/
def CacheOf (fs fs' : Echfs) : Prop := ∃ m, fs' = { fs with cachedBlocks := m }

theorem CacheOf.trans {fs'' : Echfs} (h : CacheOf fs fs') (h' : CacheOf fs' fs'') :
    CacheOf fs fs'' := by
  obtain ⟨m, rfl⟩ := h
  obtain ⟨m', rfl⟩ := h'
  exact ⟨m', rfl⟩

theorem CacheOf.shape (h : CacheOf fs fs') : SameShape fs fs' := by
  obtain ⟨m, rfl⟩ := h
  exact ⟨rfl, rfl, rfl, rfl⟩

theorem CacheOf.entry_eq (h : CacheOf fs fs') : fs'.entry = fs.entry := by
  obtain ⟨m, rfl⟩ := h
  rfl

theorem CacheOf.disk_eq (h : CacheOf fs fs') : fs'.disk = fs.disk := by
  obtain ⟨m, rfl⟩ := h
  rfl

/-! ### Positions -/

theorem Mounted.le_mainDirBlock (h : fs.Mounted) : 16 ≤ fs.mainDirBlock := by
  have hmain := h.mainDir
  exact Nat.le_of_mul_le_mul_right (by omega : 16 * fs.blockSize ≤ fs.mainDirBlock * fs.blockSize)
    h.addressable.pos

theorem Mounted.blocks_lt (h : fs.Mounted) : fs.blocks < 2 ^ 62 := by
  have hvol := h.addressable.volume
  have hsize : 8 ≤ fs.blockSize := Nat.le_of_dvd h.addressable.pos h.addressable.dvd
  have := Nat.mul_le_mul_left fs.blocks hsize
  omega

/-- The table lies in front of the main directory. -/
theorem Mounted.allocTableBlock_lt (h : fs.Mounted) (hb : b < fs.blocks) :
    fs.allocTableBlock b < fs.mainDirBlock := by
  obtain ⟨-, -, hpos⟩ := allocTable_position h.addressable hb
  have hmain := h.mainDir
  exact Nat.lt_of_mul_lt_mul_right (a := fs.blockSize) (by omega)

/-- A data block lies behind the table and the main directory. -/
theorem Mounted.isData_position (h : fs.Mounted) (hb : fs.IsData b) :
    (∀ b' < fs.blocks, 16 * fs.blockSize + 8 * b' + 8 ≤ b * fs.blockSize) ∧
    ∀ k < fs.dirCount, fs.entryOffset k + sizeofDirEntry ≤ b * fs.blockSize := by
  have hmain := h.mainDir
  have hfits := h.fits
  have hle := Nat.mul_le_mul_right fs.blockSize hb.1
  unfold dataStart at hle
  rw [Nat.add_mul] at hle hfits
  refine ⟨fun b' hb' => by omega, fun k hk => ?_⟩
  rw [(h.inSpace hk).entryOffset_eq.1]
  unfold Echfs.dirCount at hk
  unfold sizeofDirEntry at *
  omega

/-! ### What the operations change -/

theorem readBlock_keys (h : fs.cachedBlocks.Plain) {d : Bytes}
    (hd : (fs.readBlock b).2.cachedBlocks.lookup k = some d) :
    k = b ∨ ∃ d', fs.cachedBlocks.lookup k = some d' := by
  unfold readBlock at hd
  rw [h.getElem b] at hd
  cases hlook : fs.cachedBlocks.lookup b with
  | some cached =>
    rw [hlook] at hd
    exact Or.inr ⟨d, hd⟩
  | none =>
    rw [hlook] at hd
    rw [(h.setElem hlook _).2] at hd
    split_ifs at hd with hk
    · exact Or.inl hk
    · exact Or.inr ⟨d, hd⟩

theorem writeBlock_keys (h : fs.cachedBlocks.Plain) {data d : Bytes}
    (hd : (fs.writeBlock b data).cachedBlocks.lookup k = some d) :
    ∃ d', fs.cachedBlocks.lookup k = some d' := by
  unfold writeBlock at hd
  rw [(h.updateElem b _).2] at hd
  split_ifs at hd with hk
  · obtain ⟨d', hd', -⟩ := Option.map_eq_some_iff.1 hd
    exact ⟨d', hk ▸ hd'⟩
  · exact ⟨d, hd⟩

/-- Writing a data block changes neither the table nor the main directory. -/
theorem Mounted.tables_writeData (h : fs.Mounted) (hb : fs.IsData b) (data : Bytes) :
    (∀ b' < fs.blocks, (fs.writeBlock b data).entry b' = fs.entry b') ∧
    ∀ k < fs.dirCount, (fs.writeBlock b data).readDirEntry k = fs.readDirEntry k := by
  have hblock := h.addressable.block hb.2
  obtain ⟨-, m, hm⟩ := writeBlock_spec h.coherent h.addressable.pos hblock data
  obtain ⟨htable, hdir⟩ := h.isData_position hb
  refine ⟨fun b' hb' => ?_, fun k hk => ?_⟩
  · rw [hm]
    exact getLE_patch_of_disjoint (Or.inl (htable b' hb'))
  · have hlt := hdir k hk
    rw [hm]
    show DirEntry.mk (slice _ (fs.entryOffset k) _) 0 = _
    congr 1
    funext i
    unfold slice
    split_ifs
    · exact patch_of_lt (by omega)
    · rfl

namespace Sound

variable (h : fs.Sound)
include h

theorem readBlock (hb : b < fs.mainDirBlock) (hb' : (b + 1) * fs.blockSize ≤ 2 ^ 64) :
    (fs.readBlock b).2.Sound := by
  obtain ⟨-, hcoh, m, hm⟩ := readBlock_spec h.mounted.coherent h.mounted.addressable.pos hb'
  have hshape : SameShape fs (fs.readBlock b).2 := by rw [hm]; exact ⟨rfl, rfl, rfl, rfl⟩
  refine ⟨hshape.mounted h.mounted hcoh, fun k d hd => ?_⟩
  rw [hshape.mainDirBlock]
  rcases readBlock_keys h.mounted.coherent.plain hd with rfl | ⟨d', hd'⟩
  · exact hb
  · exact h.tableCached k d' hd'

theorem writeBlock (hb : (b + 1) * fs.blockSize ≤ 2 ^ 64) (data : Bytes) :
    (fs.writeBlock b data).Sound := by
  obtain ⟨hcoh, m, hm⟩ := writeBlock_spec h.mounted.coherent h.mounted.addressable.pos hb data
  have hshape : SameShape fs (fs.writeBlock b data) := ⟨rfl, rfl, rfl, rfl⟩
  refine ⟨hshape.mounted h.mounted hcoh, fun k d hd => ?_⟩
  obtain ⟨d', hd'⟩ := writeBlock_keys h.mounted.coherent.plain hd
  exact h.tableCached k d' hd'

theorem getEntryForBlock (hb : b < fs.blocks) :
    (fs.getEntryForBlock b).1 = fs.entry b ∧ (fs.getEntryForBlock b).2.Sound ∧
    CacheOf fs (fs.getEntryForBlock b).2 := by
  obtain ⟨hentry, -, hm⟩ := getEntryForBlock_spec h.mounted.coherent h.mounted.addressable hb
  obtain ⟨hpos, -, -⟩ := allocTable_position h.mounted.addressable hb
  exact ⟨hentry, h.readBlock (h.mounted.allocTableBlock_lt hb) hpos, hm⟩

theorem setEntryForBlock (hb : b < fs.blocks) (v : ℕ) :
    (fs.setEntryForBlock b v).Sound ∧ ∃ m, fs.setEntryForBlock b v =
      { fs with
        disk := fs.disk.putLE (16 * fs.blockSize + 8 * b) 8 v
        cachedBlocks := m } := by
  obtain ⟨-, hm⟩ := setEntryForBlock_spec h.mounted.coherent h.mounted.addressable hb v
  obtain ⟨hpos, -, -⟩ := allocTable_position h.mounted.addressable hb
  obtain ⟨-, -, m', hm'⟩ := readBlock_spec h.mounted.coherent h.mounted.addressable.pos hpos
  refine ⟨(h.readBlock (h.mounted.allocTableBlock_lt hb) hpos).writeBlock ?_ _, hm⟩
  rw [hm']
  exact hpos

theorem findFreeBlock (hfree : ∃ b < fs.blocks, fs.entry b = 0) :
    fs.findFreeBlock.2.Sound ∧ CacheOf fs fs.findFreeBlock.2 ∧
    fs.findFreeBlock.1 < fs.blocks ∧ fs.entry fs.findFreeBlock.1 = 0 := by
  have hkeep : ∀ fuel i fs, Sound fs → i + fuel = fs.blocks → (findFreeLoop fuel i fs).2.Sound := by
    intro fuel
    induction fuel with
    | zero => exact fun i fs h _ => h
    | succ fuel ih =>
      intro i fs h hi
      obtain ⟨-, hsound, hm⟩ := h.getEntryForBlock (b := i) (by omega)
      rw [findFreeLoop]
      split_ifs
      · exact hsound
      · refine ih (i + 1) _ hsound ?_
        rw [hm.shape.blocks]
        omega
  obtain ⟨-, hm, hlt, hzero⟩ := findFreeBlock_spec h.mounted hfree
  exact ⟨hkeep fs.blocks 0 fs h (Nat.zero_add _), hm, hlt, hzero⟩

theorem writeData (hb : fs.IsData b) (data : Bytes) :
    (fs.writeBlock b data).Sound ∧
    (∀ b' < fs.blocks, (fs.writeBlock b data).entry b' = fs.entry b') ∧
    ∀ k < fs.dirCount, (fs.writeBlock b data).readDirEntry k = fs.readDirEntry k :=
  ⟨h.writeBlock (h.mounted.addressable.block hb.2) data, h.mounted.tables_writeData hb data⟩

/-- Writing an entry of the main directory changes this entry only. -/
theorem writeDirEntry {n : ℕ} (hn : n < fs.dirCount) (data : DirEntry) :
    (fs.writeDirEntry n data).Sound ∧
    (∀ b < fs.blocks, (fs.writeDirEntry n data).entry b = fs.entry b) ∧
    (∀ k < fs.dirCount, k ≠ n → (fs.writeDirEntry n data).readDirEntry k = fs.readDirEntry k) ∧
    ∀ i < sizeofDirEntry, ((fs.writeDirEntry n data).readDirEntry n).raw i = data.raw i := by
  have hin := h.mounted.inSpace hn
  have hshape : SameShape fs (fs.writeDirEntry n data) := ⟨rfl, rfl, rfl, rfl⟩
  refine ⟨⟨hshape.mounted h.mounted ⟨h.mounted.coherent.plain, fun b d hd i hi => ?_⟩,
    h.tableCached⟩, fun b hb => ?_, fun k hk hne => ?_, fun i hi => ?_⟩
  · -- the cached blocks lie in front of the main directory
    have hlt := Nat.mul_le_mul_right fs.blockSize (Nat.succ_le_of_lt (h.tableCached b d hd))
    have hoff := hin.entryOffset_eq.1
    have hi' : i < fs.blockSize := hi
    rw [Nat.succ_mul] at hlt
    rw [disk_writeDirEntry, h.mounted.coherent.agree b d hd i hi]
    exact (patch_of_lt (show b * fs.blockSize + i < fs.entryOffset n by omega)).symm
  · exact getLE_patch_of_disjoint (Or.inl (h.mounted.table_lt hin hb))
  · exact readDirEntry_writeDirEntry (h.mounted.inSpace hk).entryOffset_eq.2
      hin.entryOffset_eq.2 hne data
  · show slice _ (fs.entryOffset n) _ i = _
    rw [slice_of_lt hi, disk_writeDirEntry]
    exact patch_add hi

end Sound

end Echfs

end DripOS
