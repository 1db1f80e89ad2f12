import DripOS.Fs.Echfs.Volume
import DripOS.Klibc.HashmapRefines

/-!
# The block cache and the allocation table

`Echfs.Coherent` : every cached block has the contents of the device.  Reading and writing blocks
keep it, and under it the driver reads the device and writes through to it.  A table entry is a
number at position `16 * block_size + 8 * block` of the device (`Echfs.setEntryForBlock_spec`).
`Echfs.blockOps_exact` puts this together for all sequences of operations on blocks.
-/

namespace DripOS

open Bytes Nat

namespace Echfs

variable {fs : Echfs} {b v : ℕ}

/-- The entry of a block in the allocation table on the device. -/
def entry (fs : Echfs) (b : ℕ) : ℕ := fs.disk.getLE (16 * fs.blockSize + 8 * b) 8

/-- Seeking to a block of the volume or its table reaches it: the positions have 64 bits.  Blocks
consist of whole words. -/
structure Addressable (fs : Echfs) : Prop where
  pos : 0 < fs.blockSize
  dvd : 8 ∣ fs.blockSize
  volume : fs.blocks * fs.blockSize ≤ 2 ^ 64
  table : ∀ b < fs.blocks, (b * 8 / fs.blockSize + 17) * fs.blockSize ≤ 2 ^ 64

/-- Every cached block has the contents of the device. -/
structure Coherent (fs : Echfs) : Prop where
  plain : fs.cachedBlocks.Plain
  agree : ∀ b d, fs.cachedBlocks.lookup b = some d → ∀ i < fs.blockSize,
    d i = fs.disk (b * fs.blockSize + i)

theorem coherent_init (h : fs.cachedBlocks = .init) : fs.Coherent := by
  refine ⟨h ▸ Hashmap.plain_init, fun b d hd => ?_⟩
  rw [h] at hd
  cases hd

/-- Positions in different blocks are different. -/
theorem block_disjoint {bs b k i : ℕ} (hk : k ≠ b) (hi : i < bs) :
    k * bs + i < b * bs ∨ b * bs + bs ≤ k * bs + i := by
  rcases Nat.lt_or_gt_of_ne hk with h | h
  · have := Nat.mul_le_mul_right bs (succ_le_of_lt h)
    rw [succ_mul] at this
    omega
  · have := Nat.mul_le_mul_right bs (succ_le_of_lt h)
    rw [succ_mul] at this
    omega

theorem mod_position (hb : (b + 1) * fs.blockSize ≤ 2 ^ 64) (hpos : 0 < fs.blockSize) :
    b * fs.blockSize % 2 ^ 64 = b * fs.blockSize := by
  rw [Nat.add_mul, Nat.one_mul] at hb
  exact mod_eq_of_lt (by omega)

/-! ### Reading and writing blocks -/

/-- `echfs_read_block` returns the contents of the device, and changes only the cache. -/
theorem readBlock_spec (h : fs.Coherent) (hpos : 0 < fs.blockSize)
    (hb : (b + 1) * fs.blockSize ≤ 2 ^ 64) :
    (∀ i < fs.blockSize, (fs.readBlock b).1 i = fs.disk (b * fs.blockSize + i)) ∧
    (fs.readBlock b).2.Coherent ∧ ∃ m, (fs.readBlock b).2 = { fs with cachedBlocks := m } := by
  unfold readBlock
  rw [h.plain.getElem b, mod_position hb hpos]
  cases hd : fs.cachedBlocks.lookup b with
  | some d =>
    refine ⟨fun i hi => ?_, h, _, rfl⟩
    dsimp only
    rw [slice_of_lt hi, Nat.zero_add]
    exact h.agree b d hd i hi
  | none =>
    obtain ⟨hplain, hlookup⟩ := h.plain.setElem hd (fs.disk.slice (b * fs.blockSize) fs.blockSize)
    refine ⟨fun i hi => slice_of_lt hi, ⟨hplain, fun k d hk i hi => ?_⟩, _, rfl⟩
    rw [hlookup] at hk
    split_ifs at hk with hkb
    · obtain rfl := Option.some.inj hk
      rw [hkb]
      exact slice_of_lt hi
    · exact h.agree k d hk i hi

/-- `echfs_write_block` writes to the device and keeps the cache coherent. -/
theorem writeBlock_spec (h : fs.Coherent) (hpos : 0 < fs.blockSize)
    (hb : (b + 1) * fs.blockSize ≤ 2 ^ 64) (data : Bytes) :
    (fs.writeBlock b data).Coherent ∧ ∃ m, fs.writeBlock b data =
      { fs with
        disk := fs.disk.patch (b * fs.blockSize) fs.blockSize data
        cachedBlocks := m } := by
  unfold writeBlock
  rw [mod_position hb hpos]
  obtain ⟨hplain, hlookup⟩ := h.plain.updateElem b fun cached => cached.patch 0 fs.blockSize data
  refine ⟨⟨hplain, fun k d hk i hi => ?_⟩, _, rfl⟩
  have hi' : i < fs.blockSize := hi
  rw [hlookup] at hk
  split_ifs at hk with hkb
  · subst hkb
    obtain ⟨d0, -, rfl⟩ := Option.map_eq_some_iff.1 hk
    have hleft : d0.patch 0 fs.blockSize data (0 + i) = data i := patch_add hi'
    rw [Nat.zero_add] at hleft
    exact hleft.trans (patch_add hi').symm
  · rw [h.agree k d hk i hi']
    rcases block_disjoint hkb hi' with hlt | hle
    · exact (patch_of_lt hlt).symm
    · exact (patch_of_le hle).symm

/-! ### The allocation table -/

/-- The two divisions that locate an entry of the table match. -/
theorem allocTable_position (h : fs.Addressable) (hb : b < fs.blocks) :
    (fs.allocTableBlock b + 1) * fs.blockSize ≤ 2 ^ 64 ∧
    fs.allocTableSlot b + 8 ≤ fs.blockSize ∧
    fs.allocTableBlock b * fs.blockSize + fs.allocTableSlot b = 16 * fs.blockSize + 8 * b := by
  obtain ⟨k, hk⟩ := h.dvd
  have hkpos : 0 < k := by
    have := h.pos
    omega
  have hvol := h.volume
  have htable := h.table b hb
  -- a block is at least a word long, so that the position of its entry does not wrap
  have hb8 : b * 8 < 2 ^ 64 := by
    have h1 : (b + 1) * 8 ≤ fs.blocks * fs.blockSize := Nat.mul_le_mul hb (by omega)
    omega
  have hdiv : b * 8 / fs.blockSize = b / k := by
    rw [hk, Nat.mul_comm b 8, Nat.mul_div_mul_left _ _ (by decide)]
  have hle : b / k + 17 ≤ 2 ^ 64 := by
    rw [hdiv] at htable
    exact le_trans (Nat.le_mul_of_pos_right _ h.pos) htable
  have hblock : fs.allocTableBlock b = b / k + 16 := by
    rw [allocTableBlock, mod_eq_of_lt hb8, hdiv, mod_eq_of_lt (by omega)]
  have hslot : fs.allocTableSlot b = 8 * (b % k) := by
    rw [allocTableSlot, hk, Nat.mul_div_cancel_left _ (by decide)]
  have hmod : b % k < k := mod_lt _ hkpos
  refine ⟨?_, ?_, ?_⟩
  · rw [hblock]
    rwa [hdiv] at htable
  · rw [hslot, hk]
    omega
  · rw [hblock, hslot, hk]
    calc (b / k + 16) * (8 * k) + 8 * (b % k)
        = 16 * (8 * k) + 8 * (k * (b / k) + b % k) := by ring
      _ = 16 * (8 * k) + 8 * b := by rw [div_add_mod]

theorem getEntryForBlock_spec (h : fs.Coherent) (ha : fs.Addressable) (hb : b < fs.blocks) :
    (fs.getEntryForBlock b).1 = fs.entry b ∧ (fs.getEntryForBlock b).2.Coherent ∧
    ∃ m, (fs.getEntryForBlock b).2 = { fs with cachedBlocks := m } := by
  obtain ⟨hblock, hslot, hpos⟩ := allocTable_position ha hb
  obtain ⟨hread, hcoh, hsame⟩ := readBlock_spec h ha.pos hblock
  refine ⟨?_, hcoh, hsame⟩
  rw [entry, ← hpos]
  exact getLE_congr fun i hi => by rw [hread _ (by omega), Nat.add_assoc]

theorem setEntryForBlock_spec (h : fs.Coherent) (ha : fs.Addressable) (hb : b < fs.blocks)
    (v : ℕ) : (fs.setEntryForBlock b v).Coherent ∧ ∃ m, fs.setEntryForBlock b v =
      { fs with
        disk := fs.disk.putLE (16 * fs.blockSize + 8 * b) 8 v
        cachedBlocks := m } := by
  obtain ⟨hblock, hslot, hpos⟩ := allocTable_position ha hb
  obtain ⟨hread, hcoh, m, hsame⟩ := readBlock_spec h ha.pos hblock
  have hwrite := writeBlock_spec hcoh (by rw [hsame]; exact ha.pos) (by rw [hsame]; exact hblock)
    ((fs.readBlock (fs.allocTableBlock b)).1.putLE (fs.allocTableSlot b) 8 v)
  obtain ⟨hcoh', m', hwrite⟩ := hwrite
  refine ⟨hcoh', m', hwrite.trans ?_⟩
  rw [hsame]
  dsimp only
  congr 1
  -- the block is written back as it was, apart from the entry
  set p := fs.allocTableBlock b * fs.blockSize
  set o := fs.allocTableSlot b
  funext i
  rw [← hpos]
  by_cases hin : p ≤ i ∧ i < p + fs.blockSize
  · obtain ⟨j, rfl⟩ := Nat.exists_eq_add_of_le hin.1
    have hj : j < fs.blockSize := by omega
    rw [patch_add hj]
    by_cases hent : o ≤ j ∧ j < o + 8
    · obtain ⟨n, rfl⟩ := Nat.exists_eq_add_of_le hent.1
      have hn : n < 8 := by omega
      rw [putLE, patch_add hn, ← Nat.add_assoc, putLE, patch_add hn]
    · have hout : ∀ c : Bytes, ∀ q, c.putLE (q + o) 8 v (q + j) = c (q + j) := fun c q => by
        rcases Nat.lt_or_ge j o with hlt | hge
        · exact patch_of_lt (by omega)
        · exact patch_of_le (by omega)
      have h0 := hout (fs.readBlock (fs.allocTableBlock b)).1 0
      rw [Nat.zero_add, Nat.zero_add] at h0
      rw [hout, h0]
      exact hread j hj
  · rcases Nat.lt_or_ge i p with hlt | hge
    · rw [patch_of_lt hlt, putLE, patch_of_lt (by omega)]
    · rw [patch_of_le (by omega), putLE, patch_of_le (by omega)]

theorem entry_setEntry (b' : ℕ) {m : Hashmap Bytes} :
    entry { fs with
        disk := fs.disk.putLE (16 * fs.blockSize + 8 * b) 8 v
        cachedBlocks := m } b' = if b' = b then v % 2 ^ 64 else fs.entry b' := by
  unfold entry
  dsimp only
  split_ifs with hb
  · rw [hb, getLE_putLE]
    norm_num
  · exact getLE_putLE_of_disjoint (by omega)

/-! ### Sequences of operations on blocks -/

/-- An operation on a block. -/
inductive BlockOp where
  | read (block : ℕ)
  | write (block : ℕ) (data : Bytes)
  | getEntry (block : ℕ)
  | setEntry (block data : ℕ)

/-- The block of an operation. -/
def BlockOp.block : BlockOp → ℕ
  | read b => b
  | write b _ => b
  | getEntry b => b
  | setEntry b _ => b

/-- The volume after an operation. -/
def execBlock (fs : Echfs) : BlockOp → Echfs
  | .read b => (fs.readBlock b).2
  | .write b data => fs.writeBlock b data
  | .getEntry b => (fs.getEntryForBlock b).2
  | .setEntry b v => fs.setEntryForBlock b v

/-- An operation on a block of the volume. -/
def BlockStep (fs : Echfs) (op : BlockOp) (fs' : Echfs) : Prop :=
  op.block < fs.blocks ∧ fs' = fs.execBlock op

/-- What the driver reads is on the device, and writing a table entry changes nothing else. -/
structure Exact (fs : Echfs) : Prop where
  read : ∀ b < fs.blocks, ∀ i < fs.blockSize, (fs.readBlock b).1 i = fs.disk (b * fs.blockSize + i)
  getEntry : ∀ b < fs.blocks, ∀ v < 2 ^ 64, ∀ b' < fs.blocks,
    ((fs.setEntryForBlock b v).getEntryForBlock b').1 =
      if b' = b then v else (fs.getEntryForBlock b').1
  setEntry : ∀ b < fs.blocks, ∀ v i,
    i < 16 * fs.blockSize + 8 * b ∨ 16 * fs.blockSize + 8 * b + 8 ≤ i →
    (fs.setEntryForBlock b v).disk i = fs.disk i

theorem Addressable.block (h : fs.Addressable) (hb : b < fs.blocks) :
    (b + 1) * fs.blockSize ≤ 2 ^ 64 := le_trans (Nat.mul_le_mul_right _ hb) h.volume

theorem Addressable.of_eq {fs' : Echfs} (h : fs.Addressable) (hb : fs'.blocks = fs.blocks)
    (hs : fs'.blockSize = fs.blockSize) : fs'.Addressable := by
  refine ⟨?_, ?_, ?_, ?_⟩
  · rw [hs]; exact h.pos
  · rw [hs]; exact h.dvd
  · rw [hb, hs]; exact h.volume
  · rw [hb, hs]; exact h.table

theorem Coherent.exact (h : fs.Coherent) (ha : fs.Addressable) : fs.Exact := by
  refine ⟨fun b hb => (readBlock_spec h ha.pos (ha.block hb)).1, fun b hb v hv b' hb' => ?_,
    fun b hb v i hi => ?_⟩
  · obtain ⟨hcoh, m, hset⟩ := setEntryForBlock_spec h ha hb v
    have ha' : (fs.setEntryForBlock b v).Addressable := ha.of_eq (by rw [hset]) (by rw [hset])
    rw [(getEntryForBlock_spec hcoh ha' (by rw [hset]; exact hb')).1,
      (getEntryForBlock_spec h ha hb').1, hset, entry_setEntry, mod_eq_of_lt hv]
  · obtain ⟨-, m, hset⟩ := setEntryForBlock_spec h ha hb v
    rw [hset]
    rcases hi with hlt | hle
    · exact patch_of_lt hlt
    · exact patch_of_le hle

/-- An operation keeps the cache coherent and the shape of the volume. -/
theorem execBlock_spec (h : fs.Coherent) (ha : fs.Addressable) {op : BlockOp}
    (hop : op.block < fs.blocks) :
    (fs.execBlock op).Coherent ∧ (fs.execBlock op).Addressable := by
  cases op with
  | read b =>
    have hop : b < fs.blocks := hop
    obtain ⟨-, hcoh, m, hsame⟩ := readBlock_spec h ha.pos (ha.block hop)
    exact ⟨hcoh, ha.of_eq (by rw [execBlock, hsame]) (by rw [execBlock, hsame])⟩
  | write b data =>
    have hop : b < fs.blocks := hop
    obtain ⟨hcoh, m, hsame⟩ := writeBlock_spec h ha.pos (ha.block hop) data
    exact ⟨hcoh, ha.of_eq (by rw [execBlock, hsame]) (by rw [execBlock, hsame])⟩
  | getEntry b =>
    have hop : b < fs.blocks := hop
    obtain ⟨-, hcoh, m, hsame⟩ := getEntryForBlock_spec h ha hop
    exact ⟨hcoh, ha.of_eq (by rw [execBlock, hsame]) (by rw [execBlock, hsame])⟩
  | setEntry b v =>
    have hop : b < fs.blocks := hop
    obtain ⟨hcoh, m, hsame⟩ := setEntryForBlock_spec h ha hop v
    exact ⟨hcoh, ha.of_eq (by rw [execBlock, hsame]) (by rw [execBlock, hsame])⟩

/-- **The block cache is invisible.**  In every run of operations on blocks from an empty cache, the
driver reads what is on the device, and writes single table entries. -/
theorem blockOps_exact {fs₀ : Echfs} {ops : List BlockOp} (ha : fs₀.Addressable)
    (hinit : fs₀.cachedBlocks = .init) (hrun : Run BlockStep fs₀ ops fs) : fs.Exact := by
  have hinv := hrun.invariant (I := fun fs => fs.Coherent ∧ fs.Addressable)
    ⟨coherent_init hinit, ha⟩ fun fs op fs' ⟨hcoh, ha⟩ ⟨hop, hexec⟩ =>
      hexec ▸ execBlock_spec hcoh ha hop
  exact hinv.1.exact hinv.2

/-- 24 blocks of 256 bytes, one for the table and four for the directory. -/
def smallVolume (disk : Bytes) : Echfs where
  blocks := 24
  blockSize := 256
  mainDirBlock := 17
  mainDirBlocks := 4
  disk := disk
  cachedBlocks := .init
  cachedDirEntries := .init
  fileWrites := []

/-- The bytes of a directory entry. -/
def entryBytes (parentId entryType startingBlock fileSize : ℕ) (name : List UInt8) : Bytes :=
  let raw : Bytes := fun i => if 9 ≤ i then name.getD (i - 9) 0 else 0
  let raw := (raw.putLE 0 8 parentId).putLE 8 1 entryType
  (raw.putLE 240 8 startingBlock).putLE 248 8 fileSize

/-- A device for a small volume, with the given table and directory. -/
def smallDisk (table : ℕ → ℕ) (entries : ℕ → Bytes) : Bytes := fun i =>
  if 4096 ≤ i ∧ i < 4288 then ofNat (table ((i - 4096) / 8)) ((i - 4096) % 8)
  else if 4352 ≤ i ∧ i < 5376 then entries ((i - 4352) / 256) ((i - 4352) % 256)
  else 0

theorem addressable_smallVolume (disk : Bytes) : (smallVolume disk).Addressable where
  pos := show 0 < 256 by decide
  dvd := show 8 ∣ 256 by decide
  volume := show 24 * 256 ≤ 2 ^ 64 by decide
  table := fun b (hb : b < 24) => show (b * 8 / 256 + 17) * 256 ≤ 2 ^ 64 by omega

/-- A chain of two blocks is made on a small volume, and the second block is written. -/
def chainOps : List BlockOp :=
  [.setEntry 21 22, .setEntry 22 echfsEndOfChain, .getEntry 21, .write 22 fun _ => 7, .read 22]

theorem blockOps_exact_smallVolume :
    ∃ fs, Run BlockStep (smallVolume fun _ => 0) chainOps fs ∧ fs.Exact := by
  obtain ⟨fs, hfs⟩ := Option.isSome_iff_exists.1 (show (chainOps.foldlM
    (fun (fs : Echfs) op => if op.block < fs.blocks then some (fs.execBlock op) else none)
    (smallVolume fun _ => 0)).isSome = true by decide +kernel)
  have hrun : Run BlockStep (smallVolume fun _ => 0) chainOps fs := by
    refine Run.of_foldlM (fun fs op fs' hop => ?_) hfs
    split_ifs at hop with hlt
    exact ⟨hlt, (Option.some.inj hop).symm⟩
  exact ⟨fs, hrun, blockOps_exact (addressable_smallVolume _) rfl hrun⟩

end Echfs

end DripOS
