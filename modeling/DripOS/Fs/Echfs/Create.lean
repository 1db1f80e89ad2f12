import DripOS.Fs.Echfs.DirCache
import DripOS.Fs.Echfs.Path

/-!
# Creating files

`echfs_create_handler` takes the first free block and the first free directory slot, and writes the
table entry and the directory entry.  The searches return 0 when there is none, and the handler does
not notice.

* `Echfs.create_atomic_iff` : when a call creates the file or changes nothing;
* `Echfs.Creatable.of_valid` : with valid directory ids and single slashes, this takes a free block
  and a free slot.
-/

namespace DripOS

open Bytes List Nat

/-- An absolute path with a last name that fits into a directory entry. -/
structure NewPath where
  dirs : List (List UInt8)
  name : List UInt8
  dirs_plain : ∀ dir ∈ dirs, slash ∉ dir
  name_plain : slash ∉ name
  name_ne_nil : name ≠ []
  name_short : name.length ≤ 200

namespace NewPath

variable (path : NewPath)

/-- The characters of the path. -/
def chars : List UInt8 := slash :: joinPath path.dirs path.name

/-- The path in front of the last name. -/
def parent : List UInt8 :=
  match path.dirs.getLast? with
  | none => [slash]
  | some dir => slash :: joinPath path.dirs.dropLast dir

/-- The handler cuts the path at its last `/`. -/
theorem cut : ∃ pre, path.chars = pre ++ slash :: path.name ∧
    path.parent = if pre = [] then [slash] else pre := by
  cases hdirs : path.dirs.getLast? with
  | none =>
    have hnil := List.getLast?_eq_none_iff.1 hdirs
    refine ⟨[], ?_, ?_⟩
    · rw [chars, hnil]
      rfl
    · rw [parent, hdirs, if_pos rfl]
  | some dir =>
    have hsnoc := dropLast_append_getLast? dir hdirs
    refine ⟨slash :: joinPath path.dirs.dropLast dir, ?_, ?_⟩
    · rw [chars, ← hsnoc, joinPath_snoc, dropLast_concat]
      rfl
    · rw [parent, hdirs, if_neg (cons_ne_nil _ _)]

theorem pathRemoveElem_chars : pathRemoveElem VolumeHalt.fault path.chars = .ok path.parent := by
  obtain ⟨pre, hpre, hparent⟩ := path.cut
  rw [hpre, pathRemoveElem_append _ _ path.name_plain, hparent]

theorem ptrToEndPathElem_chars : ptrToEndPathElem VolumeHalt.fault path.chars = .ok path.name := by
  obtain ⟨pre, hpre, -⟩ := path.cut
  rw [hpre, ptrToEndPathElem_append _ _ path.name_plain]

end NewPath

/-! ### The new entry -/

/-- The entry that `echfs_create_handler` writes. -/
def newFile (stack : Bytes) (name : List UInt8) (parentId block createTime modifyTime
    accessTime : ℕ) : DirEntry :=
  let newFile : DirEntry := ⟨stack.patch 9 (name.length + 1) fun i => name.getD i 0, 0⟩
  let newFile := (((newFile.setParentId parentId).setGroupId 0).setOwnerId 0).setFileSizeBytes 0
  let newFile := (newFile.setPermissions 0).setUnixCreateTime createTime
  let newFile := (newFile.setUnixModifyTime modifyTime).setUnixAccessTime accessTime
  (newFile.setStartingBlock block).setEntryType echfsTypeFile

theorem DirEntry.startingBlock_setEntryType {e : DirEntry} {v : ℕ} :
    (e.setEntryType v).startingBlock = e.startingBlock :=
  getLE_putLE_of_disjoint (Or.inr (by decide))

theorem DirEntry.startingBlock_lt (e : DirEntry) : e.startingBlock < 2 ^ 64 := by
  have := @getLE_lt e.raw 240 8
  exact this

section NewFile

variable (stack : Bytes) (name : List UInt8) (parentId block t1 t2 t3 : ℕ)

theorem raw_newFile : (newFile stack name parentId block t1 t2 t3).raw =
    ((((((((((stack.patch 9 (name.length + 1) fun i => name.getD i 0).putLE 0 8 parentId).putLE
      230 2 0).putLE 228 2 0).putLE 248 8 0).putLE 226 2 0).putLE 232 8 t1).putLE 218 8 t2).putLE
      210 8 t3).putLE 240 8 block).putLE 8 1 echfsTypeFile := rfl

theorem parentId_newFile :
    (newFile stack name parentId block t1 t2 t3).parentId = parentId % 2 ^ 64 := by
  rw [DirEntry.parentId, raw_newFile]
  simp (disch := omega) only [getLE_putLE_of_disjoint, getLE_putLE]
  norm_num

theorem entryType_newFile :
    (newFile stack name parentId block t1 t2 t3).entryType = echfsTypeFile := by
  rw [DirEntry.entryType, raw_newFile, getLE_putLE]
  rfl

theorem startingBlock_newFile :
    (newFile stack name parentId block t1 t2 t3).startingBlock = block % 2 ^ 64 := by
  rw [DirEntry.startingBlock, raw_newFile]
  simp (disch := omega) only [getLE_putLE_of_disjoint, getLE_putLE]
  norm_num

theorem fileSizeBytes_newFile : (newFile stack name parentId block t1 t2 t3).fileSizeBytes = 0 := by
  rw [DirEntry.fileSizeBytes, raw_newFile]
  simp (disch := omega) only [getLE_putLE_of_disjoint, getLE_putLE]
  norm_num

/-- A name of at most 200 characters is not overwritten. -/
theorem name_newFile {name : List UInt8} (hname : name.length ≤ 200) {i : ℕ}
    (hi : i < name.length + 1) :
    (newFile stack name parentId block t1 t2 t3).name i = name.getD i 0 := by
  rw [DirEntry.name, raw_newFile]
  simp (disch := omega) only [putLE_of_disjoint]
  exact patch_add hi

end NewFile

namespace Echfs

variable {fs : Echfs} {b i : ℕ}

/-! ### Free blocks and free slots -/

/-- A volume whose areas lie one behind the other, with a coherent block cache. -/
structure Mounted (fs : Echfs) : Prop where
  addressable : fs.Addressable
  coherent : fs.Coherent
  mainDir : 16 * fs.blockSize + 8 * fs.blocks ≤ fs.mainDirBlock * fs.blockSize
  fits : (fs.mainDirBlock + fs.mainDirBlocks) * fs.blockSize ≤ 2 ^ 64

theorem Addressable.lt_two_pow (h : fs.Addressable) (hb : b < fs.blocks) : b < 2 ^ 64 :=
  Nat.lt_of_lt_of_le b.lt_succ_self ((Nat.le_mul_of_pos_right _ h.pos).trans (h.block hb))

/-- A slot of the main directory is unused or deleted. -/
def FreeSlot (fs : Echfs) (i : ℕ) : Prop :=
  (fs.readDirEntry i).parentId = 0 ∨ (fs.readDirEntry i).parentId = echfsDeletedEntry

instance : Decidable (fs.FreeSlot i) := inferInstanceAs (Decidable (_ ∨ _))

theorem findFreeLoop_spec {fuel i : ℕ} (hc : fs.Coherent) (ha : fs.Addressable)
    (hi : i + fuel = fs.blocks) :
    (findFreeLoop fuel i fs).2.Coherent ∧
    (∃ m, (findFreeLoop fuel i fs).2 = { fs with cachedBlocks := m }) ∧
    ((∀ b, i ≤ b → b < fs.blocks → fs.entry b ≠ 0) ∨
      (i ≤ (findFreeLoop fuel i fs).1 ∧ (findFreeLoop fuel i fs).1 < fs.blocks ∧
        fs.entry (findFreeLoop fuel i fs).1 = 0)) := by
  induction fuel generalizing i fs with
  | zero => exact ⟨hc, ⟨_, rfl⟩, Or.inl fun b h1 h2 => by omega⟩
  | succ fuel ih =>
    obtain ⟨hentry, hcoh, m, hm⟩ := getEntryForBlock_spec hc ha (b := i) (by omega)
    rw [findFreeLoop]
    by_cases hfree : (fs.getEntryForBlock i).1 = 0
    · rw [if_pos hfree]
      exact ⟨hcoh, ⟨m, hm⟩, Or.inr ⟨le_rfl, by omega, hentry ▸ hfree⟩⟩
    · rw [if_neg hfree]
      -- the rest of the search runs on the same volume with another cache
      have hblocks : (fs.getEntryForBlock i).2.blocks = fs.blocks := by rw [hm]
      have hsame : ∀ b, (fs.getEntryForBlock i).2.entry b = fs.entry b := fun b => by rw [hm]; rfl
      obtain ⟨hcoh', ⟨m', hm'⟩, hrest⟩ := ih hcoh
        (ha.of_eq hblocks (by rw [hm])) (i := i + 1) (by rw [hblocks]; omega)
      refine ⟨hcoh', ⟨m', by rw [hm', hm]⟩, ?_⟩
      rw [hblocks, hsame] at hrest
      rcases hrest with hnone | ⟨hle, hlt, hzero⟩
      · refine Or.inl fun b h1 h2 => ?_
        rcases Nat.eq_or_lt_of_le h1 with rfl | hlt
        · exact hentry ▸ hfree
        · exact hsame b ▸ hnone b hlt h2
      · exact Or.inr ⟨by omega, hlt, hzero⟩

/-- `find_free_block` finds a free block if there is one. -/
theorem findFreeBlock_spec (h : fs.Mounted) (hfree : ∃ b < fs.blocks, fs.entry b = 0) :
    fs.findFreeBlock.2.Coherent ∧ (∃ m, fs.findFreeBlock.2 = { fs with cachedBlocks := m }) ∧
    fs.findFreeBlock.1 < fs.blocks ∧ fs.entry fs.findFreeBlock.1 = 0 := by
  obtain ⟨hcoh, hm, hnone | ⟨-, hlt, hzero⟩⟩ :=
    findFreeLoop_spec h.coherent h.addressable (Nat.zero_add fs.blocks)
  · obtain ⟨b, hb, hb'⟩ := hfree
    exact absurd hb' (hnone b (Nat.zero_le b) hb)
  · exact ⟨hcoh, hm, hlt, hzero⟩

theorem freeDirEntryLoop_succ (fuel i : ℕ) : fs.freeDirEntryLoop (fuel + 1) i =
    if fs.FreeSlot i then i else fs.freeDirEntryLoop fuel (i + 1) := rfl

theorem freeDirEntryLoop_congr {fs' : Echfs} {fuel i : ℕ}
    (h : ∀ k < i + fuel, fs'.readDirEntry k = fs.readDirEntry k) :
    fs'.freeDirEntryLoop fuel i = fs.freeDirEntryLoop fuel i := by
  induction fuel generalizing i with
  | zero => rfl
  | succ fuel ih =>
    have hiff : fs'.FreeSlot i ↔ fs.FreeSlot i := by rw [FreeSlot, FreeSlot, h i (by omega)]
    rw [freeDirEntryLoop_succ, freeDirEntryLoop_succ, ih fun k hk => h k (by omega)]
    simp only [hiff]

theorem freeDirEntryLoop_spec {fuel i : ℕ} (hfree : ∃ k, i ≤ k ∧ k < i + fuel ∧ fs.FreeSlot k) :
    i ≤ fs.freeDirEntryLoop fuel i ∧ fs.freeDirEntryLoop fuel i < i + fuel ∧
    fs.FreeSlot (fs.freeDirEntryLoop fuel i) ∧
    ∀ k, i ≤ k → k < fs.freeDirEntryLoop fuel i → ¬ fs.FreeSlot k := by
  induction fuel generalizing i with
  | zero =>
    omega
  | succ fuel ih =>
    rw [freeDirEntryLoop_succ]
    by_cases hi : fs.FreeSlot i
    · rw [if_pos hi]
      exact ⟨le_rfl, by omega, hi, fun k h1 h2 => by omega⟩
    · rw [if_neg hi]
      obtain ⟨k, h1, h2, hk⟩ := hfree
      have hne : i ≠ k := fun h => hi (h ▸ hk)
      obtain ⟨hle, hlt, hslot, hbefore⟩ := ih (i := i + 1) ⟨k, by omega, by omega, hk⟩
      refine ⟨by omega, by omega, hslot, fun j h1 h2 => ?_⟩
      rcases Nat.eq_or_lt_of_le h1 with rfl | hj
      · exact hi
      · exact hbefore j hj h2

/-- `get_free_directory_entry` finds the first free slot if there is one. -/
theorem getFreeDirectoryEntry_spec (hfree : ∃ k < fs.dirCount, fs.FreeSlot k) :
    fs.getFreeDirectoryEntry < fs.dirCount ∧ fs.FreeSlot fs.getFreeDirectoryEntry ∧
    ∀ k < fs.getFreeDirectoryEntry, ¬ fs.FreeSlot k := by
  obtain ⟨k, hk, hslot⟩ := hfree
  obtain ⟨-, hlt, hslot, hbefore⟩ :=
    @freeDirEntryLoop_spec fs fs.dirCount 0 ⟨k, Nat.zero_le k, by omega, hslot⟩
  exact ⟨by rwa [Nat.zero_add] at hlt, hslot, fun j hj => hbefore j (Nat.zero_le j) hj⟩

/-! ### The volume after the two writes -/

/-- `echfs_create_handler` once it knows the directory and the name. -/
def createFile (fs : Echfs) (stack : Bytes) (name : List UInt8) (parentId t₁ t₂ t₃ : ℕ) : Echfs :=
  let r := fs.findFreeBlock
  let file := newFile stack name parentId r.1 t₁ t₂ t₃
  let fs := r.2.setEntryForBlock file.startingBlock echfsEndOfChain
  fs.writeDirEntry fs.getFreeDirectoryEntry file

section CreateFile

variable {stack : Bytes} {name : List UInt8} {parentId t1 t2 t3 k : ℕ}

/-- `echfs_create_handler` is two lookups and `createFile`. -/
theorem echfsCreateHandler_eq (path : NewPath) (stack : Bytes) (t1 t2 t3 : ℕ) :
    fs.echfsCreateHandler path.chars stack t1 t2 t3 = (do
      let file ← fs.resolveUncached path.chars
      if file.entry.isSome then pure (-Errno.eexist.code, fs)
      else do
        match ← fs.createParent path.parent with
        | .inl err => pure (-err.code, fs)
        | .inr parentId => pure (0, fs.createFile stack path.name parentId t1 t2 t3)) := by
  have hname : DirEntry.setName ⟨stack, 0⟩ path.name =
      .ok ⟨stack.patch 9 (path.name.length + 1) fun i => path.name.getD i 0, 0⟩ := by
    have := path.name_short
    rw [DirEntry.setName, if_pos (by omega)]
  rw [echfsCreateHandler, pathResolve, if_neg (by decide)]
  cases fs.resolveUncached path.chars with
  | error e => rfl
  | ok file =>
    simp only [ok_bind, pure_bind]
    split_ifs with hfile
    · rfl
    · rw [path.pathRemoveElem_chars, ok_bind]
      cases fs.createParent path.parent with
      | error e => rfl
      | ok parent =>
        cases parent with
        | inl err => rfl
        | inr parentId =>
          simp only [ok_bind, path.ptrToEndPathElem_chars, hname, createFile, newFile,
            DirEntry.startingBlock_setEntryType]

/-- The positions of the entries up to this one are 64-bit numbers. -/
def InSpace (fs : Echfs) (k : ℕ) : Prop :=
  fs.mainDirBlock * fs.blockSize + (k + 1) * sizeofDirEntry ≤ 2 ^ 64

theorem InSpace.entryOffset_eq (hk : fs.InSpace k) :
    fs.entryOffset k = fs.mainDirBlock * fs.blockSize + k * sizeofDirEntry ∧ k < 2 ^ 56 := by
  unfold InSpace at hk
  unfold entryOffset sizeofDirEntry at *
  omega

theorem InSpace.of_le {j : ℕ} (hk : fs.InSpace k) (hj : j ≤ k) : fs.InSpace j :=
  le_trans (Nat.add_le_add_left (Nat.mul_le_mul_right _ (succ_le_succ hj)) _) hk

/-- The slots of the main directory lie on the volume. -/
theorem Mounted.inSpace (h : fs.Mounted) (hk : k < fs.dirCount) : fs.InSpace k := by
  have hfits := h.fits
  unfold dirCount at hk
  unfold InSpace sizeofDirEntry at *
  rw [Nat.add_mul] at hfits
  omega

/-- A table entry and a directory entry do not overlap. -/
theorem Mounted.table_lt (h : fs.Mounted) (hk : fs.InSpace k) (hb : b < fs.blocks) :
    16 * fs.blockSize + 8 * b + 8 ≤ fs.entryOffset k := by
  have hmain := h.mainDir
  rw [hk.entryOffset_eq.1]
  omega

theorem Mounted.readDirEntry_putLE (h : fs.Mounted) {v : ℕ} {m : Hashmap Bytes}
    (hk : fs.InSpace k) (hb : b < fs.blocks) :
    ({ fs with
        disk := fs.disk.putLE (16 * fs.blockSize + 8 * b) 8 v
        cachedBlocks := m } : Echfs).readDirEntry k = fs.readDirEntry k := by
  have hlt := h.table_lt hk hb
  show DirEntry.mk (slice _ (fs.entryOffset k) _) 0 = _
  congr 1
  funext i
  unfold slice
  split_ifs
  · exact putLE_of_disjoint (by omega)
  · rfl

/-- **The volume after the two writes.** -/
theorem Mounted.createFile_eq (h : fs.Mounted) (hblock : ∃ b < fs.blocks, fs.entry b = 0) :
    ∃ m, fs.createFile stack name parentId t1 t2 t3 =
      ({ fs with
          disk := fs.disk.putLE (16 * fs.blockSize + 8 * fs.findFreeBlock.1) 8 echfsEndOfChain
          cachedBlocks := m } : Echfs).writeDirEntry fs.getFreeDirectoryEntry
        (newFile stack name parentId fs.findFreeBlock.1 t1 t2 t3) := by
  obtain ⟨hcoh, ⟨m, hm⟩, hlt, -⟩ := findFreeBlock_spec h hblock
  have hblocks : fs.findFreeBlock.2.blocks = fs.blocks := by rw [hm]
  have hsize : fs.findFreeBlock.2.blockSize = fs.blockSize := by rw [hm]
  obtain ⟨-, m', hm'⟩ := setEntryForBlock_spec hcoh (h.addressable.of_eq hblocks hsize)
    (by rw [hblocks]; exact hlt) echfsEndOfChain
  have hstart := startingBlock_newFile stack name parentId fs.findFreeBlock.1 t1 t2 t3
  rw [mod_eq_of_lt (h.addressable.lt_two_pow hlt)] at hstart
  refine ⟨m', ?_⟩
  unfold createFile
  dsimp only
  rw [hstart, hm', hsize, hm]
  -- the table entry is not part of the main directory
  rw [getFreeDirectoryEntry, getFreeDirectoryEntry]
  rw [freeDirEntryLoop_congr fun k hk => h.readDirEntry_putLE
    (h.inSpace (by rwa [Nat.zero_add] at hk)) hlt]
  rfl

/-- One slot and one table entry differ: the slot holds `file`, and the block ends a chain. -/
structure Written (fs fs' : Echfs) (slot block : ℕ) (file : DirEntry) : Prop where
  slots : ∀ k, fs.InSpace k → k ≠ slot → fs'.readDirEntry k = fs.readDirEntry k
  slot : ∀ i < sizeofDirEntry, (fs'.readDirEntry slot).raw i = file.raw i
  blocks : ∀ b < fs.blocks, fs'.entry b = if b = block then echfsEndOfChain else fs.entry b

theorem Mounted.written_createFile (h : fs.Mounted) (hblock : ∃ b < fs.blocks, fs.entry b = 0)
    (hslot : ∃ k < fs.dirCount, fs.FreeSlot k) :
    Written fs (fs.createFile stack name parentId t1 t2 t3) fs.getFreeDirectoryEntry
      fs.findFreeBlock.1 (newFile stack name parentId fs.findFreeBlock.1 t1 t2 t3) := by
  obtain ⟨m, hm⟩ : ∃ m, fs.createFile stack name parentId t1 t2 t3 = _ := h.createFile_eq hblock
  obtain ⟨-, -, hb, -⟩ := findFreeBlock_spec h hblock
  obtain ⟨hs, -, -⟩ := getFreeDirectoryEntry_spec hslot
  rw [hm]
  refine ⟨fun k hk hne => ?_, fun i hi => ?_, fun b hb' => ?_⟩
  · rw [readDirEntry_writeDirEntry hk.entryOffset_eq.2 (h.inSpace hs).entryOffset_eq.2 hne]
    exact h.readDirEntry_putLE hk hb
  · show slice _ (fs.entryOffset fs.getFreeDirectoryEntry) _ i = _
    rw [slice_of_lt hi, disk_writeDirEntry]
    exact patch_add hi
  · have hlt := h.table_lt (h.inSpace hs) hb'
    have hentry : ∀ disk : Bytes,
        (disk.patch (fs.entryOffset fs.getFreeDirectoryEntry) sizeofDirEntry
        (newFile stack name parentId fs.findFreeBlock.1 t1 t2 t3).raw).getLE
          (16 * fs.blockSize + 8 * b) 8 = disk.getLE (16 * fs.blockSize + 8 * b) 8 := fun disk =>
      getLE_patch_of_disjoint (Or.inl hlt)
    have hset := @entry_setEntry fs fs.findFreeBlock.1 echfsEndOfChain b m
    rw [show echfsEndOfChain % 2 ^ 64 = echfsEndOfChain by decide] at hset
    rw [← hset]
    exact hentry _

end CreateFile

/-! ### Atomic creation -/

variable {fs' : Echfs} {stack : Bytes} {t1 t2 t3 parentId slot block n id q : ℕ} {path : NewPath}
  {file : Resolved} {dirs : List (List UInt8)}

/-- One free slot and one free block were taken, the rest of the directory and the table is as
before, and the path leads to an empty file. -/
structure CreatesFile (fs fs' : Echfs) (path : List UInt8) (slot block : ℕ) : Prop where
  slot_lt : slot < fs.dirCount
  slot_free : fs.FreeSlot slot
  slot_changed : fs'.readDirEntry slot ≠ fs.readDirEntry slot
  slots : ∀ k < fs.dirCount, k ≠ slot → fs'.readDirEntry k = fs.readDirEntry k
  block_lt : block < fs.blocks
  block_free : fs.entry block = 0
  block_taken : fs'.entry block = echfsEndOfChain
  blocks : ∀ b < fs.blocks, b ≠ block → fs'.entry b = fs.entry b
  resolves : ∃ e, fs'.resolveUncached path = .ok ⟨some e, 0⟩ ∧ e.entryNumber = slot ∧
    e.entryType = echfsTypeFile ∧ e.fileSizeBytes = 0 ∧ e.startingBlock = block

/-- `echfs_create_handler` creates the file or changes nothing. -/
def CreateAtomic (fs : Echfs) (path : NewPath) (stack : Bytes) (t₁ t₂ t₃ : ℕ) : Prop :=
  ∃ ret fs', fs.echfsCreateHandler path.chars stack t₁ t₂ t₃ = .ok (ret, fs') ∧
    (ret = 0 ∧ (∃ slot block, CreatesFile fs fs' path.chars slot block) ∨
      ret ≠ 0 ∧ (∀ k < fs.dirCount, fs'.readDirEntry k = fs.readDirEntry k) ∧
        ∀ b < fs.blocks, fs'.entry b = fs.entry b)

/-- The file can be created in the directory `parentId`: there are a free block and a free slot, no
earlier slot has the name, and the path still leads to the directory when the slot is taken.  For
valid directories, `Creatable.of_valid` has conditions that do not look at the new entry. -/
structure Creatable (fs : Echfs) (path : NewPath) (stack : Bytes) (parentId t₁ t₂ t₃ : ℕ) :
    Prop where
  block : ∃ b < fs.blocks, fs.entry b = 0
  slot : ∃ k < fs.dirCount, fs.FreeSlot k
  unmatched : ∀ k < fs.getFreeDirectoryEntry, ¬ fs.Matches path.name parentId k
  reached : (fs.createFile stack path.name parentId t₁ t₂ t₃).walk path.dirs echfsRootDirId =
    .ok (some parentId)

/-- The lookups return, and a file that is not there can be created. -/
def CreateOk (fs : Echfs) (path : NewPath) (stack : Bytes) (t₁ t₂ t₃ : ℕ) : Prop :=
  ∃ file, fs.resolveUncached path.chars = .ok file ∧ (file.entry = none →
    ∃ parent, fs.createParent path.parent = .ok parent ∧
      ∀ parentId, parent = .inr parentId → fs.Creatable path stack parentId t₁ t₂ t₃)

theorem resolveUncached_chars (path : NewPath) :
    fs.resolveUncached path.chars = fs.lookupPath path.dirs path.name echfsRootDirId := by
  refine resolveUncached_joinPath path.dirs_plain path.name_plain fun hpath => ?_
  obtain ⟨pre, hpre, -⟩ := path.cut
  -- the last character of the path is one of the name
  have hlast := congrArg List.getLast? (hpre.symm.trans (congrArg (slash :: ·) hpath))
  rw [List.getLast?_append, List.getLast?_cons] at hlast
  have hmem : (slash : UInt8) ∈ path.name := by
    cases hname : path.name.getLast? with
    | none => exact absurd (List.getLast?_eq_none_iff.1 hname) path.name_ne_nil
    | some c =>
      rw [hname] at hlast
      obtain rfl : c = slash := by simpa using hlast
      exact List.mem_of_getLast? hname
  exact path.name_plain hmem

/-- The directory in which the file is created. -/
theorem createParent_inr (h : fs.createParent path.parent = .ok (.inr parentId)) :
    parentId < 2 ^ 64 ∧ (path.parent = [slash] ∧ parentId = echfsRootDirId ∨
      fs.walk path.dirs echfsRootDirId = .ok (some parentId)) := by
  unfold createParent at h
  split_ifs at h with hroot
  · rw [pathResolve, if_neg (by decide)] at h
    obtain ⟨⟨r, fs1⟩, hr, h⟩ := bind_eq_ok.1 h
    obtain ⟨r', hr', hpair⟩ := bind_eq_ok.1 hr
    obtain rfl : r' = r := (Prod.mk.inj (Except.ok.inj hpair)).1
    obtain ⟨entry, c⟩ := r'
    cases entry with
    | none => cases h
    | some e =>
      dsimp only at h
      split_ifs at h with htype
      · cases h
      · obtain rfl : e.startingBlock = parentId := Sum.inr.inj (Except.ok.inj h)
        refine ⟨e.startingBlock_lt, Or.inr ?_⟩
        cases hdirs : path.dirs.getLast? with
        | none =>
          rw [NewPath.parent, hdirs] at hroot
          exact absurd rfl hroot
        | some dir =>
          have hsnoc := dropLast_append_getLast? dir hdirs
          have hplain := path.dirs_plain
          rw [NewPath.parent, hdirs] at hr'
          dsimp only at hr'
          by_cases hslash : joinPath path.dirs.dropLast dir = [slash]
          · rw [hslash, resolveUncached, List.head?_cons, if_pos rfl, tail_cons, if_pos rfl] at hr'
            cases hr'
          · rw [resolveUncached_joinPath (fun d hd => hplain d (dropLast_subset _ hd))
              (hplain dir (List.mem_of_getLast? hdirs)) hslash] at hr'
            rw [← hsnoc]
            exact walk_of_lookupPath hr' (not_not.1 htype)
  · obtain rfl : echfsRootDirId = parentId := Sum.inr.inj (Except.ok.inj h)
    exact ⟨by decide, Or.inl ⟨not_not.1 hroot, rfl⟩⟩

/-- When the path leads to a directory but not to the file, the search of the last name fails. -/
theorem find_fail (hfile : fs.resolveUncached path.chars = .ok file) (hnone : file.entry = none)
    (hwalk : fs.walk path.dirs echfsRootDirId = .ok (some parentId)) :
    fs.findEntryNameParent path.name parentId = .ok echfsSearchFail := by
  rw [resolveUncached_chars] at hfile
  obtain ⟨-, hw⟩ | ⟨q, hw, hlast⟩ := lookupPath_ok hfile
  · rw [hwalk] at hw
    cases hw
  · rw [hwalk] at hw
    cases hw
    obtain ⟨-, hsearch⟩ | ⟨i, rfl, -⟩ := lastElem_ok hlast
    · obtain ⟨-, ⟨-, hfail⟩ | ⟨i, hi, -⟩⟩ := searchElem_ok hsearch
      · exact hfail
      · cases hi
    · cases hnone

/-- When the search fails, no entry up to the first unused one matches. -/
theorem not_matches_of_fail {name : List UInt8} {k : ℕ}
    (hfail : fs.findEntryNameParent name parentId = .ok echfsSearchFail) (hk : k < 2 ^ 56)
    (hbefore : ∀ j < k, (fs.readDirEntry j).parentId ≠ 0) : ¬ fs.Matches name parentId k := by
  obtain ⟨t, -, hpass, ⟨-, rfl⟩ | ⟨hm, hz, -⟩⟩ := findEntryNameParent_ok hfail
  · exact (hpass k (by unfold echfsSearchFail; omega)).1
  · rcases Nat.lt_trichotomy k t with h | rfl | h
    · exact (hpass k h).1
    · exact hm
    · exact absurd hz (hbefore t h)

/-- The slot of a new file did not match before. -/
theorem not_matches_slot (hfile : fs.resolveUncached path.chars = .ok file)
    (hnone : file.entry = none) (hparent : fs.createParent path.parent = .ok (.inr parentId))
    {s : ℕ} (hs : s < 2 ^ 56) (hfree : fs.FreeSlot s) (hbefore : ∀ k < s, ¬ fs.FreeSlot k) :
    ¬ fs.Matches path.name parentId s := by
  obtain ⟨-, ⟨-, rfl⟩ | hwalk⟩ := createParent_inr hparent
  · -- the parent of a free slot is not the root directory
    intro hmatch
    rcases hfree with hz | hd
    · exact absurd (hmatch.1.symm.trans hz) (by decide)
    · exact absurd (hmatch.1.symm.trans hd) (by decide)
  · exact not_matches_of_fail (find_fail hfile hnone hwalk) hs
      fun j hj hz => hbefore j hj (Or.inl hz)

theorem Written.getLE {o : ℕ} {file : DirEntry} (h : Written fs fs' slot block file)
    (hon : o + n ≤ sizeofDirEntry) :
    (fs'.readDirEntry slot).raw.getLE o n = file.raw.getLE o n :=
  getLE_congr fun i hi => h.slot (o + i) (by omega)

/-- The new entry has the name and the parent. -/
theorem Written.matches {name : List UInt8}
    (h : Written fs fs' slot block (newFile stack name parentId block t1 t2 t3))
    (hname : name.length ≤ 200) (hparent : parentId < 2 ^ 64) :
    fs'.Matches name parentId slot := by
  constructor
  · have hid := parentId_newFile stack name parentId block t1 t2 t3
    rw [mod_eq_of_lt hparent] at hid
    exact (h.getLE (by decide)).trans hid
  · refine strEq_of_forall fun i hi => ?_
    rw [← name_newFile stack parentId block t1 t2 t3 hname hi]
    exact h.slot _ (by unfold sizeofDirEntry; omega)

/-- The other entries before the slot are those of the old volume. -/
theorem Written.passes {k : ℕ} {name : List UInt8} {file : DirEntry}
    (h : Written fs fs' slot block file) (hk : fs.InSpace k) (hne : k ≠ slot) :
    fs'.Passes name parentId k ↔ fs.Passes name parentId k := by
  unfold Passes Matches
  rw [h.slots k hk hne]

/-- A file that can be created is created. -/
theorem Creatable.createsFile (hm : fs.Mounted) (hfile : fs.resolveUncached path.chars = .ok file)
    (hnone : file.entry = none) (hparent : fs.createParent path.parent = .ok (.inr parentId))
    (h : fs.Creatable path stack parentId t1 t2 t3) :
    CreatesFile fs (fs.createFile stack path.name parentId t1 t2 t3) path.chars
      fs.getFreeDirectoryEntry fs.findFreeBlock.1 := by
  have hw : Written fs (fs.createFile stack path.name parentId t1 t2 t3) _ _ _ :=
    hm.written_createFile h.block h.slot
  obtain ⟨-, -, hb, hb0⟩ := findFreeBlock_spec hm h.block
  obtain ⟨hs, hfree, hbefore⟩ := getFreeDirectoryEntry_spec h.slot
  obtain ⟨-, hs56⟩ := (hm.inSpace hs).entryOffset_eq
  have hmatch := hw.matches path.name_short (createParent_inr hparent).1
  refine ⟨hs, hfree, fun heq => ?_, fun k hk => hw.slots k (hm.inSpace hk), hb, hb0, ?_,
    fun b hb' hne => ?_, ?_⟩
  · refine not_matches_slot hfile hnone hparent hs56 hfree hbefore ?_
    unfold Matches at hmatch ⊢
    rwa [heq] at hmatch
  · rw [hw.blocks _ hb, if_pos rfl]
  · rw [hw.blocks b hb', if_neg hne]
  · -- the search of the last name stops at the slot
    have hfound := findEntryNameParent_of_matches (by omega)
      (fun k hk => (hw.passes ((hm.inSpace hs).of_le hk.le) hk.ne).2
        ⟨h.unmatched k hk, fun hz => hbefore k hk (Or.inl hz)⟩)
      hmatch
    have hne : fs.getFreeDirectoryEntry ≠ echfsSearchFail := by
      unfold echfsSearchFail
      omega
    set fs' := fs.createFile stack path.name parentId t1 t2 t3
    refine ⟨⟨(fs'.readDirEntry fs.getFreeDirectoryEntry).raw, fs.getFreeDirectoryEntry⟩, ?_, rfl,
      ?_, ?_, ?_⟩
    · rw [resolveUncached_chars, lookupPath, h.reached, ok_bind]
      show lastElem _ _ _ = _
      rw [lastElem, searchElem, if_pos path.name_short, hfound, ok_bind, if_neg hne]
      rfl
    · exact (hw.getLE (by decide)).trans (entryType_newFile _ _ _ _ _ _ _)
    · exact (hw.getLE (by decide)).trans (fileSizeBytes_newFile _ _ _ _ _ _ _)
    · exact (hw.getLE (by decide)).trans ((startingBlock_newFile _ _ _ _ _ _ _).trans
        (mod_eq_of_lt (hm.addressable.lt_two_pow hb)))

/-- A file that was created could be created. -/
theorem CreatesFile.creatable (hm : fs.Mounted)
    (hparent : fs.createParent path.parent = .ok (.inr parentId))
    (h : CreatesFile fs (fs.createFile stack path.name parentId t1 t2 t3) path.chars slot block) :
    fs.Creatable path stack parentId t1 t2 t3 := by
  have hblock : ∃ b < fs.blocks, fs.entry b = 0 := ⟨block, h.block_lt, h.block_free⟩
  have hslot : ∃ k < fs.dirCount, fs.FreeSlot k := ⟨slot, h.slot_lt, h.slot_free⟩
  have hw : Written fs (fs.createFile stack path.name parentId t1 t2 t3) _ _ _ :=
    hm.written_createFile hblock hslot
  obtain ⟨hs, -, -⟩ := getFreeDirectoryEntry_spec hslot
  -- no other slot has changed
  have heq : slot = fs.getFreeDirectoryEntry := by
    by_contra hne
    exact h.slot_changed (hw.slots slot (hm.inSpace h.slot_lt) hne)
  have hmatch := hw.matches path.name_short (createParent_inr hparent).1
  obtain ⟨e, he, hnum, -⟩ := h.resolves
  rw [resolveUncached_chars] at he
  obtain ⟨hnone, -⟩ | ⟨q, hwalk, hlast⟩ := lookupPath_ok he
  · cases hnone
  obtain ⟨hnone, -⟩ | ⟨i, hr, hsearch⟩ := lastElem_ok hlast
  · cases hnone
  cases hr
  obtain ⟨-, ⟨hi, -⟩ | ⟨j, hj, hne, hfind⟩⟩ := searchElem_ok hsearch
  · cases hi
  cases hj
  obtain rfl : i = fs.getFreeDirectoryEntry := (show i = slot from hnum).trans heq
  obtain ⟨-, hm', hpass⟩ := lt_of_findEntryNameParent hfind hne
  -- the directory that the path leads to is the one of the new entry
  obtain rfl : q = parentId := hm'.1.symm.trans hmatch.1
  exact ⟨hblock, hslot, fun k hk =>
    ((hw.passes ((hm.inSpace hs).of_le hk.le) hk.ne).1 (hpass k hk)).1, hwalk⟩

/-! ### Volumes with valid directories -/

/-- An id that is not the parent of a free slot. -/
def ValidId (id : ℕ) : Prop := id ≠ 0 ∧ id ≠ echfsDeletedEntry

theorem validId_root : ValidId echfsRootDirId := by
  unfold ValidId
  decide

/-- Every search ends at the unused entry `n`, and the directories in front of it have valid ids. -/
structure ValidDirs (fs : Echfs) (n : ℕ) : Prop where
  inSpace : fs.InSpace n
  unused : (fs.readDirEntry n).parentId = 0
  ids : ∀ k < n, (fs.readDirEntry k).entryType = echfsTypeDir →
    ValidId (fs.readDirEntry k).startingBlock

/-- An entry that a search finds lies in front of the unused one. -/
theorem ValidDirs.lt {i : ℕ} {name : List UInt8} (hv : fs.ValidDirs n) (hid : ValidId id)
    (hfind : fs.findEntryNameParent name id = .ok i) (hi : i ≠ echfsSearchFail) : i < n := by
  obtain ⟨-, hmatch, hpass⟩ := lt_of_findEntryNameParent hfind hi
  rcases Nat.lt_trichotomy i n with h | rfl | h
  · exact h
  · exact absurd (hmatch.1.symm.trans hv.unused) hid.1
  · exact absurd hv.unused (hpass n h).2

theorem walk_cons_ok {dir : List UInt8} (h : fs.walk (dir :: dirs) id = .ok (some q)) :
    ∃ i, dir.length ≤ 200 ∧ i ≠ echfsSearchFail ∧ fs.findEntryNameParent dir id = .ok i ∧
      (fs.readDirEntry i).entryType = echfsTypeDir ∧
      fs.walk dirs (fs.readDirEntry i).startingBlock = .ok (some q) := by
  obtain ⟨o, ho, h⟩ := bind_eq_ok.1 h
  obtain ⟨hshort, ⟨rfl, -⟩ | ⟨i, rfl, hi, hfind⟩⟩ := searchElem_ok ho
  · cases h
  · dsimp only at h
    split_ifs at h with htype
    · cases h
    · exact ⟨i, hshort, hi, hfind, not_not.1 htype, h⟩

/-- A walk leads to directories with valid ids. -/
theorem ValidDirs.walk_valid (hv : fs.ValidDirs n) (hid : ValidId id)
    (h : fs.walk dirs id = .ok (some q)) : ValidId q := by
  induction dirs generalizing id with
  | nil =>
    cases h
    exact hid
  | cons dir dirs ih =>
    obtain ⟨i, -, hi, hfind, htype, h⟩ := walk_cons_ok h
    exact ih (hv.ids i (hv.lt hid hfind hi) htype) h

section Walk

variable {name : List UInt8} (hv : fs.ValidDirs n)
  (h : Written fs fs' slot block (newFile stack name parentId block t1 t2 t3))
  (hname : name.length ≤ 200) (hparent : parentId < 2 ^ 64) (hvalid : ValidId parentId)
  (hslot : fs.FreeSlot slot) (hid : ValidId id) (hnew : 0 ∉ name)
include hv h hname hparent hvalid hslot hid hnew

/-- The search for another name finds the entry that it found before. -/
theorem Written.find_eq {i : ℕ} {dir : List UInt8} (hdir : 0 ∉ dir)
    (hother : ¬ (dir = name ∧ id = parentId)) (hfind : fs.findEntryNameParent dir id = .ok i)
    (hi : i ≠ echfsSearchFail) :
    fs'.findEntryNameParent dir id = .ok i ∧ fs'.readDirEntry i = fs.readDirEntry i := by
  obtain ⟨hi56, hmatch, hpass⟩ := lt_of_findEntryNameParent hfind hi
  have hin : ∀ k ≤ i, fs.InSpace k := fun k hk =>
    hv.inSpace.of_le (le_trans hk (hv.lt hid hfind hi).le)
  have hne : i ≠ slot := by
    rintro rfl
    rcases hslot with hz | hd
    · exact hid.1 (hmatch.1.symm.trans hz)
    · exact hid.2 (hmatch.1.symm.trans hd)
  have hsame := h.slots i (hin i le_rfl) hne
  refine ⟨findEntryNameParent_of_matches (by omega) (fun k hk => ?_) ?_, hsame⟩
  · by_cases hks : k = slot
    · -- the new entry has another name or another parent
      subst hks
      have hwritten := h.matches hname hparent
      refine ⟨fun hm => hother ⟨?_, hm.1.symm.trans hwritten.1⟩, ?_⟩
      · exact strEq_unique hdir hnew hm.2 hwritten.2
      · rw [hwritten.1]
        exact hvalid.1
    · exact (h.passes (hin k hk.le) hks).2 (hpass k hk)
  · unfold Matches at hmatch ⊢
    rwa [hsame]

/-- A walk that does not look for the new file is not changed by it. -/
theorem Written.walk_eq (hdirs : ∀ dir ∈ dirs, 0 ∉ dir)
    (hfail : fs.findEntryNameParent name parentId = .ok echfsSearchFail)
    (hwalk : fs.walk dirs id = .ok (some q)) : fs'.walk dirs id = .ok (some q) := by
  induction dirs generalizing id with
  | nil => exact hwalk
  | cons dir dirs ih =>
    obtain ⟨i, hshort, hi, hfind, htype, hrest⟩ := walk_cons_ok hwalk
    have hother : ¬ (dir = name ∧ id = parentId) := by
      rintro ⟨rfl, rfl⟩
      rw [hfind] at hfail
      exact hi (Except.ok.inj hfail)
    obtain ⟨hfind', hsame⟩ := h.find_eq hv hname hparent hvalid hslot hid hnew
      (hdirs dir mem_cons_self) hother hfind hi
    have hstep := ih (hv.ids i (hv.lt hid hfind hi) htype)
      (fun d hd => hdirs d (mem_cons_of_mem dir hd)) hrest
    rw [walk, searchElem, if_pos hshort, hfind', ok_bind, if_neg hi]
    show (if (fs'.readDirEntry i).entryType ≠ echfsTypeDir then _ else _) = _
    rw [hsame, if_neg (not_not.2 htype)]
    exact hstep

end Walk

/-- **With valid directories and a path that does not begin with two slashes, a free block and a
free slot are enough.** -/
theorem Creatable.of_valid (hm : fs.Mounted) (hv : fs.ValidDirs n) (hnew : 0 ∉ path.name)
    (hdirs : ∀ dir ∈ path.dirs, 0 ∉ dir) (hslash : path.parent = [slash] → path.dirs = [])
    (hfile : fs.resolveUncached path.chars = .ok file) (hnone : file.entry = none)
    (hparent : fs.createParent path.parent = .ok (.inr parentId))
    (hblock : ∃ b < fs.blocks, fs.entry b = 0) (hslot : ∃ k < fs.dirCount, fs.FreeSlot k) :
    fs.Creatable path stack parentId t1 t2 t3 := by
  obtain ⟨hlt, hcase⟩ := createParent_inr hparent
  have hwalk : fs.walk path.dirs echfsRootDirId = .ok (some parentId) := by
    rcases hcase with ⟨hpar, rfl⟩ | hwalk
    · rw [hslash hpar]
      rfl
    · exact hwalk
  have hfail := find_fail hfile hnone hwalk
  obtain ⟨hs, hfree, hbefore⟩ := getFreeDirectoryEntry_spec hslot
  obtain ⟨-, hs56⟩ := (hm.inSpace hs).entryOffset_eq
  refine ⟨hblock, hslot, fun k hk => ?_, ?_⟩
  · exact not_matches_of_fail hfail (by omega) fun j hj hz => hbefore j (by omega) (Or.inl hz)
  · exact (hm.written_createFile hblock hslot).walk_eq hv path.name_short hlt
      (hv.walk_valid validId_root hwalk) hfree validId_root hnew hdirs hfail hwalk

/-! ### All calls -/

/-- **A call creates the file or changes nothing exactly when the lookups return and a file that is
not there can be created.** -/
theorem create_atomic_iff (hm : fs.Mounted) (path : NewPath) (stack : Bytes) (t₁ t₂ t₃ : ℕ) :
    CreateAtomic fs path stack t₁ t₂ t₃ ↔ CreateOk fs path stack t₁ t₂ t₃ := by
  unfold CreateAtomic CreateOk
  rw [echfsCreateHandler_eq]
  constructor
  · rintro ⟨ret, fs', hcall, hres⟩
    obtain ⟨file, hfile, hcall⟩ := bind_eq_ok.1 hcall
    refine ⟨file, hfile, fun hnone => ?_⟩
    rw [if_neg (by rw [hnone]; exact Bool.false_ne_true)] at hcall
    obtain ⟨parent, hparent, hcall⟩ := bind_eq_ok.1 hcall
    refine ⟨parent, hparent, ?_⟩
    rintro parentId rfl
    cases hcall
    obtain ⟨-, slot, block, hc⟩ | ⟨hret, -⟩ := hres
    · exact hc.creatable hm hparent
    · exact absurd rfl hret
  · rintro ⟨file, hfile, hok⟩
    rw [hfile, ok_bind]
    by_cases hsome : file.entry.isSome
    · rw [if_pos hsome]
      exact ⟨_, fs, rfl, Or.inr ⟨by decide, fun _ _ => rfl, fun _ _ => rfl⟩⟩
    · have hnone : file.entry = none := by simpa using hsome
      obtain ⟨parent, hparent, hok⟩ := hok hnone
      rw [if_neg hsome, hparent, ok_bind]
      cases parent with
      | inl err =>
        refine ⟨_, fs, rfl, Or.inr ⟨?_, fun _ _ => rfl, fun _ _ => rfl⟩⟩
        cases err <;> decide
      | inr parentId =>
        exact ⟨0, _, rfl, Or.inl ⟨rfl, _, _, (hok parentId rfl).createsFile hm hfile hnone hparent⟩⟩

theorem mounted_smallVolume (disk : Bytes) : (smallVolume disk).Mounted where
  addressable := addressable_smallVolume disk
  coherent := coherent_init rfl
  mainDir := show 16 * 256 + 8 * 24 ≤ 17 * 256 by decide
  fits := show (17 + 4) * 256 ≤ 2 ^ 64 by decide

/-- The path of a file `c` in the root directory. -/
def pathC : NewPath where
  dirs := []
  name := [0x63]
  dirs_plain := by decide
  name_plain := by decide
  name_ne_nil := by decide
  name_short := by decide

theorem exists_not_found {path : List UInt8}
    (h : (fs.resolveUncached path).toOption.map (·.entry.isNone) = some true) :
    ∃ file, fs.resolveUncached path = .ok file ∧ file.entry = none := by
  obtain ⟨file, hfile, hnone⟩ := exists_ok_of_map h
  exact ⟨file, hfile, Option.isNone_iff_eq_none.1 hnone⟩

/-- The file `c` is created on a volume with a free block and a free slot. -/
theorem create_atomic_iff_twoFiles :
    twoFiles.Mounted ∧ CreateAtomic twoFiles pathC (fun _ => 0) 1 2 3 := by
  have hm : twoFiles.Mounted := mounted_smallVolume _
  refine ⟨hm, (create_atomic_iff hm pathC _ 1 2 3).2 ?_⟩
  obtain ⟨file, hfile, hnone⟩ := @exists_not_found twoFiles pathC.chars (by decide +kernel)
  refine ⟨file, hfile, fun _ => ⟨.inr echfsRootDirId, rfl, ?_⟩⟩
  rintro parentId h
  cases h
  have hv : twoFiles.ValidDirs 2 := by
    refine ⟨show 17 * 256 + (2 + 1) * 256 ≤ 2 ^ 64 by decide, by decide +kernel, ?_⟩
    unfold ValidId
    decide +kernel
  exact Creatable.of_valid hm hv (by decide) (by decide) (fun _ => rfl) hfile hnone rfl
    ⟨23, by decide, by decide +kernel⟩ ⟨2, by decide, by decide +kernel⟩

/-- The files `a` and `b` on a volume without free blocks. -/
def fullVolume : Echfs := smallVolume (smallDisk (fun _ => echfsEndOfChain)
  fun i => if i = 0 then entryBytes echfsRootDirId echfsTypeFile 21 2 [0x61]
    else if i = 1 then entryBytes echfsRootDirId echfsTypeFile 22 0 [0x62] else fun _ => 0)

/-- **On a full volume the call returns 0**, and gives the first boot block to the new file. -/
theorem create_without_block :
    fullVolume.Mounted ∧ (∀ b < fullVolume.blocks, fullVolume.entry b ≠ 0) ∧
    (∃ fs', fullVolume.echfsCreateHandler pathC.chars (fun _ => 0) 1 2 3 = .ok (0, fs')) ∧
    ¬ CreateAtomic fullVolume pathC (fun _ => 0) 1 2 3 := by
  have hfull : ∀ b < fullVolume.blocks, fullVolume.entry b ≠ 0 := by decide +kernel
  obtain ⟨file, hfile, hnone⟩ := @exists_not_found fullVolume pathC.chars (by decide +kernel)
  have hcall : fullVolume.echfsCreateHandler pathC.chars (fun _ => 0) 1 2 3 =
      .ok (0, fullVolume.createFile (fun _ => 0) pathC.name echfsRootDirId 1 2 3) := by
    rw [echfsCreateHandler_eq, hfile, ok_bind, hnone]
    rfl
  refine ⟨mounted_smallVolume _, hfull, ⟨_, hcall⟩, ?_⟩
  rintro ⟨ret, fs', hret, ⟨-, slot, block, h⟩ | ⟨hne, -⟩⟩
  · exact hfull block h.block_lt h.block_free
  · rw [hcall] at hret
    cases hret
    exact hne rfl

end Echfs

end DripOS
