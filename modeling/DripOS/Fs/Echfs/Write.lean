import DripOS.Fs.Echfs.Chains

/-!
# Writing to files

The contents of a file are the first bytes of its blocks (`Echfs.HasContents`).  `echfs_write`
writes whole blocks, from the one on that holds the position (`Echfs.VolumeOk.echfsWrite_fits`).
The memory behind the data gets to the device, and the position of the descriptor stays where it was
(`Echfs.write_never_exact`).
-/

namespace DripOS

open List Bytes Nat

namespace Echfs

variable {fs fs' : Echfs} {b c i k n count j v start p lo hi seek : ℕ} {e : DirEntry} {l : List ℕ}
  {data buf : Bytes} {I : Echfs → Prop} {f : List UInt8} {fd : EchfsFd}

/-! ### Writing along a chain -/

/-- The bytes of a block that was written, and of the others. -/
theorem disk_writeBlock (hb : (b + 1) * fs.blockSize ≤ 2 ^ 64) (data : Bytes) {d : ℕ}
    (hi : i < fs.blockSize) : (fs.writeBlock b data).disk (d * fs.blockSize + i) =
      if d = b then data i else fs.disk (d * fs.blockSize + i) := by
  show fs.disk.patch (b * fs.blockSize % 2 ^ 64) _ _ _ = _
  rw [mod_position hb (zero_lt_of_lt hi)]
  split_ifs with hd
  · rw [hd, patch_add hi]
  · rcases block_disjoint hd hi with hlt | hle
    · exact patch_of_lt hlt
    · exact patch_of_le hle

/-- The main directory and the table are the same. -/
structure SameTables (fs fs' : Echfs) : Prop extends SameEntries fs fs' where
  entry : ∀ b < fs.blocks, fs'.entry b = fs.entry b

theorem SameTables.refl : SameTables fs fs := ⟨.refl, fun _ _ => rfl⟩

theorem SameTables.trans {fs'' : Echfs} (h : SameTables fs fs') (h' : SameTables fs' fs'') :
    SameTables fs fs'' :=
  ⟨h.toSameEntries.trans h'.toSameEntries, fun b hb =>
    (h'.entry b (by rwa [h.shape.blocks])).trans (h.entry b hb)⟩

theorem SameTables.sameFiles (h : SameTables fs fs') : SameFiles fs fs' := ⟨h.sameDir, h.entry⟩

theorem CacheOf.sameTables (h : CacheOf fs fs') : SameTables fs fs' := by
  obtain ⟨m, rfl⟩ := h
  exact ⟨⟨⟨rfl, rfl, rfl, rfl⟩, fun _ _ => rfl⟩, fun _ _ => rfl⟩

/-- Writing a block of the data of a file. -/
theorem VolumeOk.writeData (h : fs.VolumeOk) (hb : fs.IsData b) (data : Bytes) :
    ({ fs.writeBlock b data with fileWrites := b :: fs.fileWrites } : Echfs).VolumeOk ∧
    SameTables fs { fs.writeBlock b data with fileWrites := b :: fs.fileWrites } := by
  obtain ⟨hs, htable, hdir⟩ := h.sound.writeData hb data
  have hsame : SameTables fs { fs.writeBlock b data with fileWrites := b :: fs.fileWrites } :=
    ⟨⟨⟨rfl, rfl, rfl, rfl⟩, hdir⟩, htable⟩
  have hsound : ({ fs.writeBlock b data with fileWrites := b :: fs.fileWrites } : Echfs).Sound :=
    ⟨hsame.shape.mounted h.sound.mounted ⟨hs.mounted.coherent.plain, hs.mounted.coherent.agree⟩,
      hs.tableCached⟩
  refine ⟨hsame.sameFiles.volumeOk h hsound h.cached fun c hc => ?_, hsame⟩
  rcases mem_cons.1 hc with rfl | hc
  · exact hb
  · exact h.writes c hc

/-- In the states that satisfy `I`, the table can be read, and data blocks can be written without a
change of the tables. -/
structure WritesData (I : Echfs → Prop) : Prop where
  reads : ReadsTable I
  addressable : ∀ fs, I fs → fs.Addressable
  writes : ∀ fs b data, I fs → fs.IsData b →
    I { fs.writeBlock b data with fileWrites := b :: fs.fileWrites } ∧
    SameTables fs { fs.writeBlock b data with fileWrites := b :: fs.fileWrites }

theorem writesData_volumeOk : WritesData VolumeOk where
  reads := fun _ _ h hb => by
    obtain ⟨hentry, hs, hm⟩ := h.sound.getEntryForBlock hb
    exact ⟨hentry, hm.volumeOk h hs, hm⟩
  addressable := fun _ h => h.sound.mounted.addressable
  writes := fun _ _ data h hb => h.writeData hb data

/-- The first `n` blocks of the chain `l` got the bytes of `data`, and nothing else has changed. -/
structure WroteBlocks (fs fs' : Echfs) (l : List ℕ) (n : ℕ) (data : Bytes) : Prop
    extends SameTables fs fs' where
  written : ∀ k c, l[k]? = some c → ∀ i < fs.blockSize, fs'.disk (c * fs.blockSize + i) =
    if k < n then data (k * fs.blockSize + i) else fs.disk (c * fs.blockSize + i)
  other : ∀ d ∉ l, ∀ i < fs.blockSize,
    fs'.disk (d * fs.blockSize + i) = fs.disk (d * fs.blockSize + i)

theorem WroteBlocks.zero : WroteBlocks fs fs l 0 data :=
  ⟨.refl, fun _ _ _ _ _ => rfl, fun _ _ _ _ => rfl⟩

theorem WroteBlocks.cons {fs1 : Echfs} {l : List ℕ} {n : ℕ} {data : Bytes}
    (hsame : SameTables fs fs1) (hdisk : ∀ d, ∀ i < fs.blockSize, fs1.disk (d * fs.blockSize + i) =
      if d = b then data i else fs.disk (d * fs.blockSize + i)) (hb : b ∉ l)
    (h : WroteBlocks fs1 fs' l n fun i => data (fs.blockSize + i)) :
    WroteBlocks fs fs' (b :: l) (n + 1) data := by
  obtain ⟨hfiles, hwritten, hother⟩ := h
  rw [hsame.shape.blockSize] at hwritten hother
  refine ⟨hsame.trans hfiles, fun k c hk i hi => ?_, fun d hd i hi => ?_⟩
  · cases k with
    | zero =>
      obtain rfl : b = c := Option.some.inj hk
      rw [hother b hb i hi, hdisk b i hi, if_pos rfl, if_pos n.succ_pos, Nat.zero_mul, Nat.zero_add]
    | succ k =>
      have hcb : c ≠ b := fun hcb => hb (hcb ▸ mem_of_getElem? hk)
      rw [hwritten k c hk i hi, hdisk c i hi, if_neg hcb, succ_mul]
      simp only [succ_lt_succ_iff, Nat.add_assoc, Nat.add_left_comm]
  · rw [hother d (not_mem_of_not_mem_cons hd) i hi, hdisk d i hi, if_neg (ne_of_not_mem_cons hd)]

theorem WritesData.writeLoop (hI : WritesData I) (h : I fs)
    (hl : ChainFrom fs.entry echfsEndOfChain b l) (hdata : ∀ c ∈ l, fs.IsData c)
    (hn : n ≤ l.length) :
    ∃ fs', Echfs.writeLoop n b data fs = (0, fs') ∧ I fs' ∧ WroteBlocks fs fs' l n data := by
  induction n generalizing fs b l data with
  | zero => exact ⟨fs, rfl, h, .zero⟩
  | succ n ih =>
    have hbdata := hdata b hl.head_mem
    have hblock := (hI.addressable fs h).block hbdata.2
    obtain ⟨hok, hsame⟩ := hI.writes fs b data h hbdata
    have hdisk : ∀ d, ∀ i < fs.blockSize,
        ({ fs.writeBlock b data with fileWrites := b :: fs.fileWrites } : Echfs).disk
          (d * fs.blockSize + i) = if d = b then data i else fs.disk (d * fs.blockSize + i) :=
      fun d i hi => disk_writeBlock hblock data hi
    rw [Echfs.writeLoop]
    dsimp only
    generalize ({ fs.writeBlock b data with fileWrites := b :: fs.fileWrites } : Echfs) = fs1 at *
    obtain ⟨l', rfl⟩ : ∃ l', l = b :: l' := by cases hl <;> exact ⟨_, rfl⟩
    have hb : b ∉ l' := (nodup_cons.1 hl.nodup).1
    by_cases hlast : n = 0
    · subst hlast
      exact ⟨fs1, if_pos rfl, hok, .cons hsame hdisk hb .zero⟩
    · obtain ⟨hentry, hs, hm⟩ := hI.reads fs1 b hok (by rw [hsame.shape.blocks]; exact hbdata.2)
      rw [hsame.entry b hbdata.2] at hentry
      rw [if_neg hlast, hentry]
      cases hl with
      | last =>
        rw [length_singleton] at hn
        omega
      | cons hne hl =>
        have hrest : ∀ c ∈ l', fs.IsData c := fun c hc => hdata c (mem_cons_of_mem b hc)
        have hsame' := hsame.trans hm.sameTables
        obtain ⟨fs', hloop, hok', hwrote⟩ : ∃ fs', Echfs.writeLoop n (fs.entry b)
            (fun i => data (fs.blockSize + i)) (fs1.getEntryForBlock b).2 = (0, fs') ∧ _ :=
          ih hs (hl.congr fun c hc => hsame'.entry c (hrest c hc).2)
            (fun c hc => hsame'.shape.isData.2 (hrest c hc)) (le_of_succ_le_succ hn)
        rw [if_neg hne]
        refine ⟨fs', hloop, hok', .cons hsame' (fun d i hi => ?_) hb hwrote⟩
        obtain ⟨m, hm⟩ := hm
        rw [hm]
        exact hdisk d i hi

/-- The number of blocks of a range from its start on, rounded outwards. -/
theorem blocksToRead_eq {bs : ℕ} (hpos : 0 < bs) (hrange : start + count + bs ≤ 2 ^ 64) :
    (roundUp ((start + count) % 2 ^ 64) bs + 2 ^ 64 - roundDown start bs) % 2 ^ 64 / bs =
      (start + count + bs - 1) / bs - start / bs := by
  have hup : roundUp ((start + count) % 2 ^ 64) bs = (start + count + bs - 1) / bs * bs := by
    have hsum : ((start + count) % 2 ^ 64 + bs + (2 ^ 64 - 1)) % 2 ^ 64 =
        start + count + bs - 1 := by
      omega
    have hle := div_mul_le_self (start + count + bs - 1) bs
    rw [roundUp, hsum, mod_eq_of_lt (by omega)]
  have hmono : start / bs ≤ (start + count + bs - 1) / bs := Nat.div_le_div_right (by omega)
  have hle := div_mul_le_self (start + count + bs - 1) bs
  have hmul := Nat.mul_le_mul_right bs hmono
  have hdiff : ((start + count + bs - 1) / bs * bs + 2 ^ 64 - start / bs * bs) % 2 ^ 64 =
      ((start + count + bs - 1) / bs - start / bs) * bs := by
    rw [Nat.sub_mul]
    omega
  rw [hup, roundDown, hdiff, Nat.mul_div_cancel _ hpos]

/-- The blocks `k` with `lo ≤ k < hi` of the chain `l` got the bytes of `data`, and nothing else has
changed. -/
structure WroteRange (fs fs' : Echfs) (l : List ℕ) (lo hi : ℕ) (data : Bytes) : Prop
    extends SameTables fs fs' where
  written : ∀ k c, l[k]? = some c → ∀ i < fs.blockSize, fs'.disk (c * fs.blockSize + i) =
    if lo ≤ k ∧ k < hi then data ((k - lo) * fs.blockSize + i) else fs.disk (c * fs.blockSize + i)
  other : ∀ d ∉ l, ∀ i < fs.blockSize,
    fs'.disk (d * fs.blockSize + i) = fs.disk (d * fs.blockSize + i)

/-- **`write_blocks_for_range` writes whole blocks**, from the one that holds the start to the one
that holds the end. -/
theorem WritesData.writeBlocksForRange (hI : WritesData I) (h : I fs)
    (hl : ChainFrom fs.entry echfsEndOfChain e.startingBlock l) (hdata : ∀ c ∈ l, fs.IsData c)
    (hcount : count ≠ 0) (hrange : start + count + fs.blockSize ≤ 2 ^ 64)
    (hlen : (start + count + fs.blockSize - 1) / fs.blockSize ≤ l.length) :
    ∃ fs', fs.writeBlocksForRange e start count data = (0, fs') ∧ I fs' ∧
      WroteRange fs fs' l (start / fs.blockSize)
        ((start + count + fs.blockSize - 1) / fs.blockSize) data := by
  have hpos := (hI.addressable fs h).pos
  have hreach : start / fs.blockSize < (start + count + fs.blockSize - 1) / fs.blockSize := by
    rw [lt_iff_add_one_le, ← add_div_right _ hpos]
    exact Nat.div_le_div_right (by omega)
  have hlt := Nat.lt_of_lt_of_le hreach hlen
  obtain ⟨t, ht⟩ : ∃ t, l[start / fs.blockSize]? = some t := ⟨_, List.getElem?_eq_getElem hlt⟩
  have hdrop := hl.drop ht
  obtain ⟨fs1, hskip, hs, hm⟩ := hI.reads.skipLoop (n := start / fs.blockSize) h hl
    fun c hc => (hdata c hc).2
  have hsame := hm.sameTables
  have hfew : (start + count + fs.blockSize - 1) / fs.blockSize - start / fs.blockSize ≤
      (l.drop (start / fs.blockSize)).length := by
    rw [length_drop]
    omega
  obtain ⟨fs', hloop, hok, hfiles, hwritten, hother⟩ :
      ∃ fs', Echfs.writeLoop _ t data fs1 = (0, fs') ∧ _ :=
    hI.writeLoop hs (by rw [hm.entry_eq]; exact hdrop)
      (fun c hc => hsame.shape.isData.2 (hdata c (mem_of_mem_drop hc))) hfew
  rw [hsame.shape.blockSize, hm.disk_eq] at hwritten hother
  refine ⟨fs', ?_, hok, hsame.trans hfiles, fun k c hk i hi => ?_, fun d hd i hi => ?_⟩
  · have hdiv : roundDown start fs.blockSize / fs.blockSize = start / fs.blockSize :=
      Nat.mul_div_cancel _ hpos
    unfold Echfs.writeBlocksForRange
    dsimp only
    rw [hdiv, hskip, ht, blocksToRead_eq hpos hrange]
    exact hloop
  · generalize start / fs.blockSize = lo at *
    by_cases hlo : lo ≤ k
    · rw [hwritten (k - lo) c (by rw [List.getElem?_drop, Nat.add_sub_cancel' hlo, hk]) i hi]
      exact if_congr (by omega) rfl rfl
    · -- a block in front of the range is not repeated behind it
      have hmem : c ∈ l.take lo := mem_of_getElem? (i := k) (by
        rw [List.getElem?_take, if_pos (Nat.lt_of_not_le hlo), hk])
      have hnot : c ∉ l.drop lo := disjoint_take_drop hl.nodup le_rfl hmem
      rw [hother c hnot i hi, if_neg fun hk => hlo hk.1]
  · exact hother d (fun hmem => hd (mem_of_mem_drop hmem)) i hi

/-! ### The contents of a file -/

/-- The bytes of the blocks of a chain, one behind the other. -/
def chainBytes (fs : Echfs) (l : List ℕ) : Bytes := fun p =>
  fs.disk (l.getD (p / fs.blockSize) 0 * fs.blockSize + p % fs.blockSize)

/-- The file in a slot of the main directory has the contents `f`. -/
def HasContents (fs : Echfs) (j : ℕ) (f : List UInt8) : Prop :=
  ∃ b l, fs.fileStart j = some b ∧ ChainFrom fs.entry echfsEndOfChain b l ∧
    (fs.readDirEntry j).fileSizeBytes ≤ l.length * fs.blockSize ∧
    f = (fs.chainBytes l).toList (fs.readDirEntry j).fileSizeBytes

/-- A byte of a chain lies in one of its blocks. -/
theorem exists_chainBytes_eq (hp : p < l.length * fs.blockSize) :
    ∃ c, l[p / fs.blockSize]? = some c ∧ ∀ fs' : Echfs, fs'.blockSize = fs.blockSize →
      fs'.chainBytes l p = fs'.disk (c * fs.blockSize + p % fs.blockSize) := by
  have hlt : p / fs.blockSize < l.length := Nat.div_lt_of_lt_mul (by rwa [Nat.mul_comm])
  refine ⟨l[p / fs.blockSize], List.getElem?_eq_getElem hlt, fun fs' hsize => ?_⟩
  rw [chainBytes, hsize, getD_eq_getElem?_getD, List.getElem?_eq_getElem hlt, Option.getD_some]

theorem chainBytes_congr (hsize : fs'.blockSize = fs.blockSize) (hpos : 0 < fs.blockSize)
    (hdisk : ∀ c ∈ l, ∀ i < fs.blockSize,
      fs'.disk (c * fs.blockSize + i) = fs.disk (c * fs.blockSize + i))
    (hp : p < l.length * fs.blockSize) : fs'.chainBytes l p = fs.chainBytes l p := by
  obtain ⟨c, hc, hbyte⟩ := exists_chainBytes_eq hp
  rw [hbyte fs rfl, hbyte fs' hsize]
  exact hdisk c (mem_of_getElem? hc) _ (mod_lt _ hpos)

theorem fileStart_lt (hj : fs.fileStart j = some b) : j < fs.dirCount := by
  unfold Echfs.fileStart at hj
  split_ifs at hj with h
  exact h.1

/-- **The frame rule for contents.** -/
theorem HasContents.frame (hf : fs.HasContents j f) (h : fs.VolumeOk) (hsame : SameDir fs fs')
    (hentry : j < fs.dirCount → fs'.readDirEntry j = fs.readDirEntry j)
    (hcells : ∀ b l, fs.fileStart j = some b → ChainFrom fs.entry echfsEndOfChain b l → ∀ c ∈ l,
      fs.IsData c → fs'.entry c = fs.entry c ∧ ∀ i < fs.blockSize,
        fs'.disk (c * fs.blockSize + i) = fs.disk (c * fs.blockSize + i)) :
    fs'.HasContents j f := by
  obtain ⟨b, l, hb, hl, hle, hf⟩ := hf
  have hentry := hentry (fileStart_lt hb)
  have hcells := fun c hc => hcells b l hb hl c hc (h.chains.ok_of_mem hb hl hc)
  have hsize := hsame.shape.blockSize
  refine ⟨b, l, by rw [hsame.fileStart, hb], hl.congr fun c hc => (hcells c hc).1, ?_, ?_⟩
  · rwa [hentry, hsize]
  · rw [hf, hentry]
    exact toList_congr fun p hp => (chainBytes_congr hsize h.sound.mounted.addressable.pos
      (fun c hc => (hcells c hc).2) (Nat.lt_of_lt_of_le hp hle)).symm

/-- Another file keeps its contents when free blocks are linked behind a chain. -/
theorem Extended.hasContents (hext : Extended fs fs' l) (h : fs.VolumeOk)
    (hi : fs.fileStart i = some b) (hl : ChainFrom fs.entry echfsEndOfChain b l) (hij : i ≠ j)
    (hf : fs.HasContents j f) : fs'.HasContents j f := by
  refine hf.frame h hext.sameDir (hext.eq j) fun b' l' hj hl' c hc hdata => ?_
  have hused : fs.entry c ≠ 0 := fun hz => (h.free hdata.2 hz).1.2.2 j b' l' hj hl' hc
  have hcl : c ∉ l := fun hcl => h.chains.disjoint i j b b' l l' hij hi hj hl hl' hcl hc
  exact ⟨hext.entry c hcl hused, hext.data c hdata⟩

/-- Another file keeps its contents when blocks of a chain are written. -/
theorem WroteRange.hasContents (hw : WroteRange fs fs' l lo hi data) (h : fs.VolumeOk)
    (hstart : fs.fileStart i = some b) (hl : ChainFrom fs.entry echfsEndOfChain b l) (hij : i ≠ j)
    (hf : fs.HasContents j f) :
    fs'.HasContents j f := by
  refine hf.frame h hw.sameDir (hw.eq j) fun b' l' hj hl' c hc hdata => ?_
  have hcl : c ∉ l := fun hcl => h.chains.disjoint i j b b' l l' hij hstart hj hl hl' hcl hc
  exact ⟨hw.entry c hdata.2, hw.other c hcl⟩

/-- The data blocks lie behind the main directory. -/
theorem Mounted.sameData_writeDirEntry (h : fs.Mounted) (hn : n < fs.dirCount) (data : DirEntry) :
    SameData fs (fs.writeDirEntry n data) := fun d hd i _ => by
  have hpos := (h.isData_position hd).2 n hn
  rw [disk_writeDirEntry]
  exact patch_of_le (by omega)

/-- Another file keeps its contents when an entry is written back. -/
theorem HasContents.writeDirEntry (hf : fs.HasContents j f) (h : fs.VolumeOk) (he : fs.Current e)
    (hj : e.entryNumber ≠ j) :
    (fs.writeDirEntry e.entryNumber e).HasContents j f := by
  obtain ⟨-, hsame⟩ := h.writeDirEntry he
  obtain ⟨-, -, hothers, -⟩ := h.sound.writeDirEntry he.lt e
  refine hf.frame h hsame.toSameDir (fun hlt => hothers j hlt hj.symm) fun _ _ _ _ c _ hdata => ?_
  exact ⟨hsame.entry c hdata.2, h.sound.mounted.sameData_writeDirEntry he.lt e c hdata⟩

/-! ### What a write does -/

/-- A write to a file that ends in the last block of its chain or behind it, with enough free
blocks. -/
structure WriteFits (fs : Echfs) (e : DirEntry) (seek count : ℕ) : Prop where
  file : e.entryType = echfsTypeFile
  range : seek + count + fs.blockSize ≤ 2 ^ 64
  room : ∃ l, ChainFrom fs.entry echfsEndOfChain e.startingBlock l ∧
    l.length ≤ (seek + count + fs.blockSize - 1) / fs.blockSize ∧
    (seek + count + fs.blockSize - 1) / fs.blockSize ≤ l.length + fs.freeBlocks.card

theorem Current.fileStart (h : fs.Current e) (hfile : e.entryType = echfsTypeFile) :
    fs.fileStart e.entryNumber = some e.startingBlock := by
  rw [Echfs.fileStart, if_pos ⟨h.lt, h.used, h.key.entryType ▸ hfile⟩, h.key.startingBlock]

/-- The size and the times are not part of the key. -/
theorem Current.putLE (h : fs.Current e) {o : ℕ} (ho : 9 ≤ o) (hon : o + n ≤ 240 ∨ 248 ≤ o) :
    fs.Current { e with raw := e.raw.putLE o n v } := by
  refine ⟨h.lt, h.used, SameKey.trans ⟨?_, ?_, ?_⟩ h.key⟩
  · exact getLE_putLE_of_disjoint (Or.inl (by omega))
  · exact getLE_putLE_of_disjoint (Or.inl (by omega))
  · exact getLE_putLE_of_disjoint (by omega)

theorem Current.setFileSizeBytes (h : fs.Current e) : fs.Current (e.setFileSizeBytes v) :=
  h.putLE (by decide) (by decide)

theorem Current.setUnixModifyTime (h : fs.Current e) :
    fs.Current (e.setUnixModifyTime v) := h.putLE (by decide) (by decide)

theorem Current.setUnixAccessTime (h : fs.Current e) :
    fs.Current (e.setUnixAccessTime v) := h.putLE (by decide) (by decide)

/-- What a write of `count` bytes at `buf` to the position `seek` does; `l` is the chain afterwards.
-/
structure WriteEffect (fs fs' : Echfs) (e : DirEntry) (seek count : ℕ) (buf : Bytes)
    (l : List ℕ) : Prop where
  shape : SameShape fs fs'
  start : fs'.fileStart = fs.fileStart
  /-- The chain may have become longer. -/
  old : ∃ l₀, ChainFrom fs.entry echfsEndOfChain e.startingBlock l₀ ∧ l₀ <+: l
  chain : ChainFrom fs'.entry echfsEndOfChain e.startingBlock l
  length : l.length = (seek + count + fs.blockSize - 1) / fs.blockSize
  size : (fs'.readDirEntry e.entryNumber).fileSizeBytes = seek + count
  /-- Whole blocks are replaced by the memory from the buffer on. -/
  bytes : ∀ p < l.length * fs.blockSize, fs'.chainBytes l p =
    if p < seek / fs.blockSize * fs.blockSize then fs.chainBytes l p
    else buf (p - seek / fs.blockSize * fs.blockSize)
  others : ∀ j f, j ≠ e.entryNumber → fs.HasContents j f → fs'.HasContents j f

/-- The bytes of a chain after some of its blocks were written. -/
theorem WroteRange.chainBytes (hw : WroteRange fs fs' l lo hi data) (hpos : 0 < fs.blockSize)
    (hp : p < l.length * fs.blockSize) : fs'.chainBytes l p =
      if lo ≤ p / fs.blockSize ∧ p / fs.blockSize < hi then data (p - lo * fs.blockSize)
      else fs.chainBytes l p := by
  obtain ⟨c, hc, hbyte⟩ := exists_chainBytes_eq hp
  rw [hbyte fs' hw.shape.blockSize, hw.written _ c hc _ (mod_lt _ hpos), hbyte fs rfl]
  refine if_ctx_congr Iff.rfl (fun hin => ?_) fun _ => rfl
  have hsplit := div_add_mod' p fs.blockSize
  have hle := Nat.mul_le_mul_right fs.blockSize hin.1
  congr 1
  rw [Nat.sub_mul]
  omega

theorem WroteRange.bytes (hw : WroteRange fs fs' l lo hi data) (hpos : 0 < fs.blockSize)
    (hlen : l.length ≤ hi) (hp : p < l.length * fs.blockSize) :
    fs'.chainBytes l p =
      if p < lo * fs.blockSize then fs.chainBytes l p else data (p - lo * fs.blockSize) := by
  have hlt : p / fs.blockSize < hi :=
    Nat.lt_of_lt_of_le (Nat.div_lt_of_lt_mul (by rwa [Nat.mul_comm])) hlen
  rw [hw.chainBytes hpos hp]
  simp only [hlt, and_true, Nat.le_div_iff_mul_le hpos, ← Nat.not_lt, ite_not]

/-- The last steps of `echfs_write`: the blocks are linked and written, and the entry is written
back. -/
theorem WriteEffect.of_steps {fs2 fs3 : Echfs} {l' : List ℕ} (h : fs.VolumeOk)
    (hcur : fs.Current e) (hfile : e.entryType = echfsTypeFile)
    (hl : ChainFrom fs.entry echfsEndOfChain e.startingBlock l) (h2 : fs2.VolumeOk)
    (hext : Extended fs fs2 l)
    (hl' : ChainFrom fs2.entry echfsEndOfChain e.startingBlock (l ++ l'))
    (hlen : (l ++ l').length = (seek + count + fs.blockSize - 1) / fs.blockSize)
    (h3 : fs3.VolumeOk)
    (hw : WroteRange fs2 fs3 (l ++ l') (seek / fs.blockSize)
      ((seek + count + fs.blockSize - 1) / fs.blockSize) buf) (hrange : seek + count < 2 ^ 64) :
    WriteEffect fs (fs3.writeDirEntry e.entryNumber
      ((e.setFileSizeBytes (seek + count)).setUnixModifyTime n)) e seek count buf (l ++ l') := by
  have hpos := h.sound.mounted.addressable.pos
  have hstart := hcur.fileStart hfile
  have hstart2 : fs2.fileStart e.entryNumber = some e.startingBlock := by
    rw [hext.sameDir.fileStart, hstart]
  have hcur3 := (hw.sameDir.current (hext.sameDir.current hcur)).setFileSizeBytes
    (v := seek + count) |>.setUnixModifyTime (v := n)
  have hsize : ((e.setFileSizeBytes (seek + count)).setUnixModifyTime n).fileSizeBytes =
      seek + count := by
    refine (getLE_putLE_of_disjoint (Or.inr (by decide))).trans (getLE_putLE.trans ?_)
    exact mod_eq_of_lt hrange
  have hnum : ((e.setFileSizeBytes (seek + count)).setUnixModifyTime n).entryNumber =
      e.entryNumber := rfl
  generalize (e.setFileSizeBytes (seek + count)).setUnixModifyTime n = e' at *
  rw [← hnum]
  obtain ⟨-, hsame⟩ := h3.writeDirEntry hcur3
  obtain ⟨-, -, -, hraw⟩ := h3.sound.writeDirEntry hcur3.lt e'
  have hshape3 : SameShape fs fs3 := hext.shape.trans hw.shape
  have hdata2 : ∀ c ∈ l ++ l', fs2.IsData c := fun c hc => h2.chains.ok_of_mem hstart2 hl' hc
  have hdata3 : ∀ c ∈ l ++ l', fs3.IsData c := fun c hc => hw.shape.isData.2 (hdata2 c hc)
  refine ⟨hshape3.trans hsame.shape,
    hsame.fileStart.trans (hw.sameDir.fileStart.trans hext.sameDir.fileStart),
    ⟨l, hl, prefix_append l l'⟩, hl'.congr fun c hc => ?_, hlen, ?_, fun p hp => ?_,
    fun j f hj hf => ?_⟩
  · rw [hsame.entry c (hdata3 c hc).2, hw.entry c (hdata2 c hc).2]
  · rw [← hnum]
    exact (getLE_congr fun i hi =>
      hraw (248 + i) (by unfold sizeofDirEntry; omega)).trans hsize
  · have hlast := h3.sound.mounted.sameData_writeDirEntry hcur3.lt e'
    have hp2 : p < (l ++ l').length * fs2.blockSize := by rwa [hext.shape.blockSize]
    have hp3 : p < (l ++ l').length * fs3.blockSize := by rwa [hshape3.blockSize]
    rw [chainBytes_congr hsame.shape.blockSize (by rwa [hshape3.blockSize])
      (fun c hc => hlast c (hdata3 c hc)) hp3, hw.bytes (by rwa [hext.shape.blockSize]) hlen.le hp2,
      hext.shape.blockSize, chainBytes_congr hext.shape.blockSize hpos
      (fun c hc => hext.data c (hext.shape.isData.1 (hdata2 c hc))) hp]
  · have hf2 := hext.hasContents h hstart hl hj.symm hf
    exact (hw.hasContents h2 hstart2 hl' hj.symm hf2).writeDirEntry h3 hcur3
      (hnum ▸ hj.symm)

/-- The contents do not depend on the cache of directory entries. -/
theorem WriteEffect.of_dirCache {m : Hashmap DirEntry}
    (h : WriteEffect { fs with cachedDirEntries := m } fs' e seek count buf l) :
    WriteEffect fs fs' e seek count buf l :=
  ⟨⟨h.shape.blocks, h.shape.blockSize, h.shape.mainDirBlock, h.shape.mainDirBlocks⟩, h.start, h.old,
    h.chain, h.length, h.size, h.bytes, h.others⟩

/-- **A write that fits replaces whole blocks**, and leaves the descriptor as it was. -/
theorem VolumeOk.echfsWrite_fits (h : fs.VolumeOk) (hu : fs.HasUnused) {fs1 : Echfs}
    {r : Resolved} (hres : fs.pathResolve fd.path fd.unid = .ok (r, fs1))
    (hentry : r.entry = some e) (hcount : count ≠ 0) (hfit : fs.WriteFits e fd.seek count)
    (buf : Bytes) (now : ℕ) :
    ∃ fs' l, fs.echfsWrite fd buf count now = .ok (toInt count, fd, fs') ∧ fs'.VolumeOk ∧
      WriteEffect fs fs' e fd.seek count buf l := by
  obtain ⟨h1, ⟨m, hm⟩, hcur⟩ := h.pathResolve hu hres
  have hfile := hfit.file
  have hrange := hfit.range
  obtain ⟨l, hl, hlen, hroom⟩ := hfit.room
  -- the lookup has changed the cache of directory entries only
  have hsame : SameDir fs fs1 ∧ fs1.entry = fs.entry ∧ fs1.freeBlocks = fs.freeBlocks := by
    rw [hm]
    exact ⟨⟨⟨rfl, rfl, rfl, rfl⟩, fun _ _ => .refl⟩, rfl, rfl⟩
  obtain ⟨hsame, hentries, hfree⟩ := hsame
  have hl1 : ChainFrom fs1.entry echfsEndOfChain e.startingBlock l := by
    rw [hentries]
    exact hl
  have hcur1 := hsame.current (hcur e hentry)
  have hpos := h.sound.mounted.addressable.pos
  have hbytes : ((count + fd.seek) % 2 ^ 64 + fs1.blockSize + (2 ^ 64 - 1)) % 2 ^ 64 /
      fs1.blockSize = (fd.seek + count + fs.blockSize - 1) / fs.blockSize := by
    have hsum : ((count + fd.seek) % 2 ^ 64 + fs.blockSize + (2 ^ 64 - 1)) % 2 ^ 64 =
        fd.seek + count + fs.blockSize - 1 := by omega
    rw [hsame.shape.blockSize, hsum]
  have hlt : (fd.seek + count + fs.blockSize - 1) / fs.blockSize < 2 ^ 64 :=
    Nat.lt_of_le_of_lt (div_le_self _ _) (by omega)
  obtain ⟨fs2, l', halloc, h2, hext, hl', hlen'⟩ := h1.allocateBlocksForFile
    (hcur1.fileStart hfile) hl1 hlen hlt (by rwa [hfree])
  have hsize2 : fs2.blockSize = fs.blockSize := hext.shape.blockSize.trans hsame.shape.blockSize
  have hstart2 : fs2.fileStart e.entryNumber = some e.startingBlock := by
    rw [hext.sameDir.fileStart]
    exact hcur1.fileStart hfile
  obtain ⟨fs3, hwrite, h3, hw⟩ :
      ∃ fs3, fs2.writeBlocksForRange e fd.seek count buf = (0, fs3) ∧ _ :=
    writesData_volumeOk.writeBlocksForRange h2 hl'
      (fun c hc => h2.chains.ok_of_mem hstart2 hl' hc) hcount (by rwa [hsize2])
      (by rw [hsize2, hlen'])
  have hsize : (count + fd.seek) % 2 ^ 64 = fd.seek + count := by omega
  rw [hsize2] at hw
  rw [← hsame.shape.blockSize] at hw hlen'
  have hcur3 := (hw.sameDir.current (hext.sameDir.current hcur1)).setFileSizeBytes
    (v := fd.seek + count) |>.setUnixModifyTime (v := now)
  have heffect := WriteEffect.of_steps (n := now) h1 hcur1 hfile hl1 h2 hext hl' hlen' h3 hw
    (by omega)
  refine ⟨_, l ++ l', ?_, (h3.writeDirEntry hcur3).1, ?_⟩
  · unfold Echfs.echfsWrite
    rw [hres, ok_bind]
    dsimp only
    rw [hentry]
    dsimp only
    rw [if_neg hcount, hbytes, halloc, ok_bind, hwrite, if_neg (not_not.2 rfl), hsize]
    rfl
  · rw [hm] at heffect
    exact heffect.of_dirCache

/-! ### What a write should do -/

/-- The list `f` with `d` in place of the elements from `s` on. -/
def splice (f : List UInt8) (s : ℕ) (d : List UInt8) : List UInt8 :=
  f.take s ++ d ++ f.drop (s + d.length)

/-- A write of the first `count` bytes at `buf` through `fd` does to the file in slot `i`, with
contents `f`, what it has to do. -/
structure WriteExact (fs fs' : Echfs) (fd fd' : EchfsFd) (buf : Bytes) (count now i : ℕ)
    (f : List UInt8) : Prop where
  contents : fs'.HasContents i (splice f fd.seek (buf.toList count))
  size : (fs'.readDirEntry i).fileSizeBytes = max f.length (fd.seek + count)
  seek : fd'.seek = fd.seek + count
  /-- The memory behind the data does not get to the device. -/
  confined : ∀ buf' ret' fd'' fs'', (∀ j < count, buf' j = buf j) →
    fs.echfsWrite fd buf' count now = .ok (ret', fd'', fs'') → fs''.disk = fs'.disk
  others : ∀ j g, j ≠ i → fs.HasContents j g → fs'.HasContents j g

theorem echfsWrite_fd {fd' : EchfsFd} {now : ℕ} {ret : ℤ}
    (hr : fs.echfsWrite fd buf count now = .ok (ret, fd', fs')) : fd' = fd := by
  obtain ⟨⟨r, fs1⟩, -, hr⟩ := bind_eq_ok.1 hr
  dsimp only at hr
  cases hentry : r.entry with
  | none =>
    rw [hentry] at hr
    exact (congrArg (·.2.1) (Except.ok.inj hr)).symm
  | some e =>
    rw [hentry] at hr
    split_ifs at hr
    · exact (congrArg (·.2.1) (Except.ok.inj hr)).symm
    · obtain ⟨fs2, -, hr⟩ := bind_eq_ok.1 hr
      split_ifs at hr
      · exact (congrArg (·.2.1) (Except.ok.inj hr)).symm
      · exact (congrArg (·.2.1) (Except.ok.inj hr)).symm

/-- **No write does what it has to do**: the position stays where it was. -/
theorem write_never_exact {fd fd' : EchfsFd} {buf : Bytes} {count now : ℕ} {ret : ℤ}
    {f : List UInt8} (hcount : 0 < count)
    (hr : fs.echfsWrite fd buf count now = .ok (ret, fd', fs')) :
    ¬ WriteExact fs fs' fd fd' buf count now i f := by
  intro h
  have hseek := h.seek
  rw [echfsWrite_fd hr] at hseek
  omega

/-- The file `a`, open at its second byte. -/
def fdA : EchfsFd := ⟨[0x61], 5, 1⟩

/-- The bytes `z`, `z + 1`, and so on. -/
def bytesZ : Bytes := fun j => 0x7A + UInt8.ofNat j

theorem freshVolume_twoFiles : twoFiles.FreshVolume :=
  freshVolume_smallVolume (by decide +kernel) (by decide +kernel) (by decide +kernel)

/-- One byte is written to the file `a`. -/
theorem exists_write_twoFiles : ∃ e fs' l, e.entryNumber = 0 ∧ e.startingBlock = 21 ∧
    twoFiles.echfsWrite fdA bytesZ 1 7 = .ok (1, fdA, fs') ∧
    WriteEffect twoFiles fs' e 1 1 bytesZ l := by
  have h := freshVolume_twoFiles.volumeOk
  have hu : twoFiles.HasUnused := by decide +kernel
  obtain ⟨e, he, hnum⟩ := @exists_entry twoFiles [0x61] 0 (by decide +kernel)
  have hres : twoFiles.pathResolve fdA.path fdA.unid = .ok (⟨some e, 0⟩, _) :=
    pathResolve_miss Hashmap.plain_init (by decide) rfl he
  obtain ⟨-, -, hcur⟩ := h.pathResolve hu hres
  have hkey := (hcur e rfl).key
  rw [hnum] at hkey
  have hstart : e.startingBlock = 21 := hkey.startingBlock.trans (by decide +kernel)
  have hfit : twoFiles.WriteFits e fdA.seek 1 := by
    refine ⟨hkey.entryType.trans (by decide +kernel), by decide, [21], ?_, by decide, ?_⟩
    · rw [hstart]
      exact .last (by decide +kernel)
    · exact (show (1 + 1 + 256 - 1) / 256 ≤ 1 by decide).trans (Nat.le_add_right _ _)
  obtain ⟨fs', l, hwrite, -, heffect⟩ := h.echfsWrite_fits hu hres rfl (by decide) hfit bytesZ 7
  exact ⟨e, fs', l, hnum, hstart, hwrite, heffect⟩

theorem write_never_exact_twoFiles : ∃ fs', twoFiles.echfsWrite fdA bytesZ 1 7 = .ok (1, fdA, fs') ∧
    ¬ WriteExact twoFiles fs' fdA fdA bytesZ 1 7 0 [0, 0] := by
  obtain ⟨e, fs', l, -, -, hwrite, -⟩ := exists_write_twoFiles
  exact ⟨fs', hwrite, write_never_exact (by decide) hwrite⟩

/-- **A byte that was written to the second position of a file** is its first one afterwards, with
the memory behind the data after it. -/
theorem write_clobbers_file : twoFiles.FreshVolume ∧ twoFiles.HasContents 0 [0, 0] ∧
    ∃ fs', twoFiles.echfsWrite fdA bytesZ 1 7 = .ok (1, fdA, fs') ∧
      fs'.HasContents 0 [0x7A, 0x7B] ∧
      ¬ WriteExact twoFiles fs' fdA fdA bytesZ 1 7 0 [0, 0] := by
  obtain ⟨e, fs', l, hnum, hstart, hwrite, heffect⟩ := exists_write_twoFiles
  have hfile : twoFiles.fileStart 0 = some 21 := by decide +kernel
  refine ⟨freshVolume_twoFiles, ⟨21, [21], hfile, .last (by decide +kernel), by decide +kernel,
    by decide +kernel⟩, fs', hwrite, ⟨21, l, ?_, ?_, ?_, ?_⟩, fun h => absurd h.seek (by decide)⟩
  · rw [heffect.start, hfile]
  · rw [← hstart]
    exact heffect.chain
  all_goals
    have hsize := heffect.size
    have hlen := heffect.length
    rw [hnum] at hsize
  · rw [hsize, hlen, heffect.shape.blockSize]
    decide
  · rw [hsize]
    have hbytes : (fs'.chainBytes l).toList 2 = bytesZ.toList 2 :=
      toList_congr fun p hp => by
        have hp' : p < l.length * twoFiles.blockSize := by
          rw [hlen]
          exact Nat.lt_of_lt_of_le hp (by decide)
        exact (heffect.bytes p hp').trans (if_neg (Nat.not_lt_zero p))
    exact (show ([0x7A, 0x7B] : List UInt8) = bytesZ.toList 2 by decide).trans hbytes.symm

end Echfs

end DripOS
