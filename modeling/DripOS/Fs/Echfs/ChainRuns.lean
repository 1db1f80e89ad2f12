import DripOS.Fs.Echfs.Write

/-!
# Runs of the driver on a well-formed volume

`Echfs.chains_kept` : a run of `echfs_create_handler`, `echfs_post_open` and `echfs_write` keeps the
volume well-formed, and writes the data of files to data blocks only, if there is an unused
directory entry, a free block for a new file, and enough free blocks for a write, which ends behind
its chain.
-/

namespace DripOS

open Function

namespace Echfs

variable {fs fs' : Echfs} {b c i k : ℕ} {e : DirEntry}

/-! ### The calls -/

namespace VolumeOk

variable {fd : EchfsFd} {now parentId t1 t2 t3 slot : ℕ} {ret : ℤ} {stack : Bytes}
  {name : List UInt8} {file : DirEntry}

theorem echfsWrite (h : fs.VolumeOk) (hu : fs.HasUnused) {fd' : EchfsFd} {buf : Bytes} {count : ℕ}
    (hfits : ∀ r fs1, fs.pathResolve fd.path fd.unid = .ok (r, fs1) → ∀ e, r.entry = some e →
      count ≠ 0 → fs.WriteFits e fd.seek count)
    (hcall : fs.echfsWrite fd buf count now = .ok (ret, fd', fs')) : fs'.VolumeOk := by
  obtain ⟨⟨r, fs1⟩, hres, hr⟩ := bind_eq_ok.1 hcall
  obtain ⟨hok1, ⟨m, hm⟩, hcur⟩ := h.pathResolve hu hres
  dsimp only at hr
  cases hentry : r.entry with
  | none =>
    rw [hentry] at hr
    obtain rfl : fs1 = fs' := congrArg (·.2.2) (Except.ok.inj hr)
    exact hok1
  | some e =>
    rw [hentry] at hr
    split_ifs at hr with hcount
    · obtain rfl : fs1 = fs' := congrArg (·.2.2) (Except.ok.inj hr)
      exact hok1
    · obtain ⟨fs2, l, hwrite, hok2, -⟩ :=
        h.echfsWrite_fits hu hres hentry hcount (hfits r _ hres e hentry hcount) buf now
      rw [hwrite] at hcall
      obtain rfl : fs2 = fs' := congrArg (·.2.2) (Except.ok.inj hcall)
      exact hok2

theorem echfsPostOpen (h : fs.VolumeOk) (hu : fs.HasUnused) {mode : ℕ}
    (hr : fs.echfsPostOpen fd mode now = .ok (ret, fs')) : fs'.VolumeOk := by
  obtain ⟨⟨r, fs1⟩, hres, hr⟩ := bind_eq_ok.1 hr
  obtain ⟨hok1, ⟨m, hm⟩, hcur⟩ := h.pathResolve hu hres
  dsimp only at hr
  cases hentry : r.entry with
  | none =>
    rw [hentry] at hr
    obtain rfl : fs1 = fs' := congrArg (·.2) (Except.ok.inj hr)
    exact hok1
  | some e =>
    have hsame : SameFiles fs fs1 := by
      rw [hm]
      exact ⟨⟨⟨rfl, rfl, rfl, rfl⟩, fun _ _ => .refl⟩, fun _ _ => rfl⟩
    have hcur1 : fs1.Current (e.setUnixAccessTime now) :=
      (hsame.current (hcur e hentry)).setUnixAccessTime
    obtain ⟨hok2, hsame2⟩ := hok1.writeDirEntry hcur1
    rw [hentry] at hr
    split_ifs at hr
    · obtain rfl : _ = fs' := congrArg (·.2) (Except.ok.inj hr)
      exact (hok2.writeDirEntry (hsame2.current hcur1).setFileSizeBytes).1
    · obtain rfl : _ = fs' := congrArg (·.2) (Except.ok.inj hr)
      exact hok2

/-- What `createFile` does to the rest of the driver. -/
theorem createFile_rest (h : fs.VolumeOk) (hfree : fs.freeBlocks.Nonempty)
    (hslot : ∃ k < fs.dirCount, fs.FreeSlot k)
    (hfs' : fs' = fs.createFile stack name parentId t1 t2 t3) :
    fs'.Sound ∧ SameShape fs fs' ∧
    fs'.cachedDirEntries.All (fun _ e => fs.Current e) ∧ fs'.fileWrites = fs.fileWrites := by
  obtain ⟨b0, hb0⟩ := hfree
  obtain ⟨hs, ⟨m, hm⟩, hc, -⟩ := h.sound.findFreeBlock ⟨b0, mem_freeBlocks.1 hb0⟩
  have hstart := startingBlock_newFile stack name parentId fs.findFreeBlock.1 t1 t2 t3
  rw [Nat.mod_eq_of_lt (by have := h.sound.mounted.blocks_lt; omega)] at hstart
  have hc' : fs.findFreeBlock.1 < fs.findFreeBlock.2.blocks := by rw [hm]; exact hc
  obtain ⟨hs1, m1, h1⟩ := hs.setEntryForBlock hc' echfsEndOfChain
  unfold createFile at hfs'
  dsimp only at hfs'
  rw [hstart] at hfs'
  generalize fs.findFreeBlock.2.setEntryForBlock fs.findFreeBlock.1 echfsEndOfChain = fs1 at *
  rw [hm] at h1
  have hshape : SameShape fs fs1 := by
    rw [h1]
    exact ⟨rfl, rfl, rfl, rfl⟩
  -- the free slot is still free
  obtain ⟨k, hk, hkfree⟩ := hslot
  have hslot1 : fs1.FreeSlot k := by
    unfold FreeSlot
    rw [h1, h.sound.mounted.readDirEntry_putLE (h.sound.mounted.inSpace hk) hc]
    exact hkfree
  obtain ⟨hlt, -⟩ := getFreeDirectoryEntry_spec ⟨k, hshape.dirCount ▸ hk, hslot1⟩
  obtain ⟨hs2, -⟩ := hs1.writeDirEntry hlt (newFile stack name parentId fs.findFreeBlock.1 t1 t2 t3)
  rw [hfs']
  refine ⟨hs2, hshape.trans ⟨rfl, rfl, rfl, rfl⟩, ?_, ?_⟩
  · have hcached : fs1.cachedDirEntries.All fun _ e => fs.Current e := by
      rw [h1]
      exact h.cached
    exact hcached.dropFirst _
  · show fs1.fileWrites = _
    rw [h1]

/-- The first blocks of the files after a file was created. -/
theorem fileStart_written {block : ℕ} (hw : Written fs fs' slot block file) (hm : fs.Mounted)
    (hshape : SameShape fs fs') (hslot : slot < fs.dirCount) (hparent : ValidId file.parentId)
    (htype : file.entryType = echfsTypeFile) :
    fs'.fileStart = update fs.fileStart slot (some file.startingBlock) := by
  funext k
  unfold Echfs.fileStart
  rw [hshape.dirCount]
  by_cases hk : k = slot
  · subst hk
    have hused : ¬ fs'.FreeSlot k := by
      unfold FreeSlot
      rw [show (fs'.readDirEntry k).parentId = file.parentId from hw.getLE (by decide)]
      exact not_or.2 hparent
    rw [update_self, if_pos ⟨hslot, hused, (hw.getLE (by decide)).trans htype⟩]
    exact congrArg some (hw.getLE (by decide))
  · rw [update_of_ne hk]
    by_cases hlt : k < fs.dirCount
    · have hsame := hw.slots k (hm.inSpace hlt) hk
      have hkey : SameKey (fs'.readDirEntry k) (fs.readDirEntry k) := by
        rw [hsame]
        exact .refl
      simp only [hkey.freeSlot, hsame]
    · rw [if_neg fun hc => hlt hc.1, if_neg fun hc => hlt hc.1]

/-- A file in a free slot with a free block keeps the invariant. -/
theorem written (h : fs.VolumeOk) (hw : Written fs fs' slot c file) (hsound : fs'.Sound)
    (hshape : SameShape fs fs') (hcached : fs'.cachedDirEntries.All fun _ e => fs.Current e)
    (hwrites : fs'.fileWrites = fs.fileWrites) (hs : slot < fs.dirCount)
    (hsfree : fs.FreeSlot slot) (hc : c < fs.blocks) (hzero : fs.entry c = 0)
    (hparent : ValidId file.parentId) (htype : file.entryType = echfsTypeFile)
    (hstart : file.startingBlock = c) : fs'.VolumeOk := by
  have hm := h.sound.mounted
  obtain ⟨hcfree, -⟩ := h.free hc hzero
  have hfiles := fileStart_written hw hm hshape hs hparent htype
  have hdata : fs'.IsData = fs.IsData := funext fun b => propext hshape.isData
  have hother : ∀ k < fs.dirCount, k ≠ slot → fs'.readDirEntry k = fs.readDirEntry k :=
    fun k hk => hw.slots k (hm.inSpace hk)
  refine ⟨hsound, ?_, fun b hb hbdata => ?_, fun k hk hused hdir => ?_,
    hcached.imp fun _ e he => ?_, fun b hb => hshape.isData.2 (h.writes b (hwrites ▸ hb))⟩
  · -- the new chain is the free block
    have hinsert : DisjointChains (fun d => if d = c then echfsEndOfChain else fs.entry d)
        echfsEndOfChain fs.IsData (update fs.fileStart slot (some c)) :=
      h.chains.insert slot hcfree (if_pos rfl) fun d hd => if_neg hd
    unfold WellFormed
    rw [hfiles, hdata, hstart]
    exact hinsert.congr fun d hd => hw.blocks d hd.2
  · rw [hshape.blocks] at hb
    have hbdata : ¬ fs.IsData b := mt hshape.isData.2 hbdata
    rw [hw.blocks b hb, if_neg fun hbc : b = c => hbdata (hbc ▸ hcfree.1)]
    exact h.reserved b hb hbdata
  · rw [hshape.dirCount] at hk
    by_cases hks : k = slot
    · have hfile : (fs'.readDirEntry k).entryType = echfsTypeFile := by
        rw [hks]
        exact (hw.getLE (by decide)).trans htype
      exact absurd (hfile.symm.trans hdir) (by decide)
    · unfold FreeSlot at hused
      rw [hother k hk hks] at hused hdir ⊢
      exact h.ids k hk hused hdir
  · have hne : e.entryNumber ≠ slot := fun hne => he.used (hne ▸ hsfree)
    have hsame := hother _ he.lt hne
    refine ⟨hshape.dirCount ▸ he.lt, ?_, ?_⟩
    · unfold FreeSlot
      rw [hsame]
      exact he.used
    · rw [hsame]
      exact he.key

theorem createFile (h : fs.VolumeOk) (hfree : fs.freeBlocks.Nonempty) (hu : fs.HasUnused)
    (hparent : parentId < 2 ^ 64) (hvalid : ValidId parentId) :
    (fs.createFile stack name parentId t1 t2 t3).VolumeOk := by
  have hm := h.sound.mounted
  obtain ⟨k0, hk0, hz⟩ := hu
  have hslot : ∃ k < fs.dirCount, fs.FreeSlot k := ⟨k0, hk0, Or.inl hz⟩
  have hblock : ∃ b < fs.blocks, fs.entry b = 0 := by
    obtain ⟨b0, hb0⟩ := hfree
    exact ⟨b0, mem_freeBlocks.1 hb0⟩
  obtain ⟨-, -, hc, hzero⟩ := findFreeBlock_spec hm hblock
  obtain ⟨hs, hsfree, -⟩ := getFreeDirectoryEntry_spec hslot
  have hw : Written fs (fs.createFile stack name parentId t1 t2 t3) _ _ _ :=
    hm.written_createFile hblock hslot
  generalize hfs' : fs.createFile stack name parentId t1 t2 t3 = fs' at hw ⊢
  obtain ⟨hsound, hshape, hcached, hwrites⟩ := h.createFile_rest hfree hslot hfs'.symm
  have hid : ValidId (newFile stack name parentId fs.findFreeBlock.1 t1 t2 t3).parentId := by
    rw [parentId_newFile, Nat.mod_eq_of_lt hparent]
    exact hvalid
  have hstart := startingBlock_newFile stack name parentId fs.findFreeBlock.1 t1 t2 t3
  rw [Nat.mod_eq_of_lt (by have := hm.blocks_lt; omega)] at hstart
  exact h.written hw hsound hshape hcached hwrites hs hsfree hc hzero hid
    (entryType_newFile _ _ _ _ _ _ _) hstart

end VolumeOk

/-- `echfs_create_handler` changes nothing, or creates a file. -/
theorem echfsCreateHandler_ok {name : List UInt8} {stack : Bytes} {t1 t2 t3 : ℕ} {ret : ℤ}
    (hr : fs.echfsCreateHandler name stack t1 t2 t3 = .ok (ret, fs')) :
    fs' = fs ∨ ∃ path elem parentId, fs.createParent path = .ok (.inr parentId) ∧
      fs' = fs.createFile stack elem parentId t1 t2 t3 := by
  obtain ⟨⟨file, fs1⟩, hres, hr⟩ := bind_eq_ok.1 hr
  obtain ⟨file', -, hpair⟩ := bind_eq_ok.1 hres
  obtain rfl : fs = fs1 := (Prod.mk.inj (Except.ok.inj hpair)).2
  dsimp only at hr
  split_ifs at hr
  · exact Or.inl (Prod.mk.inj (Except.ok.inj hr)).2.symm
  · obtain ⟨path, -, hr⟩ := bind_eq_ok.1 hr
    obtain ⟨parent, hparent, hr⟩ := bind_eq_ok.1 hr
    cases parent with
    | inl err => exact Or.inl (Prod.mk.inj (Except.ok.inj hr)).2.symm
    | inr parentId =>
      obtain ⟨elem, -, hr⟩ := bind_eq_ok.1 hr
      obtain ⟨file, hfile, hr⟩ := bind_eq_ok.1 hr
      unfold DirEntry.setName at hfile
      split_ifs at hfile
      obtain rfl := Except.ok.inj hfile
      refine Or.inr ⟨path, elem, parentId, hparent, ?_⟩
      simp only [createFile, newFile, DirEntry.startingBlock_setEntryType]
      exact (Prod.mk.inj (Except.ok.inj hr)).2.symm

/-! ### Runs -/

/-- A call of the driver. -/
inductive FsOp where
  | create (name : List UInt8) (stack : Bytes) (createTime modifyTime accessTime : ℕ)
  | postOpen (fd : EchfsFd) (mode now : ℕ)
  | write (fd : EchfsFd) (buf : Bytes) (count now : ℕ)

/-- The volume after a call. -/
def execFs (fs : Echfs) : FsOp → Except VolumeHalt Echfs
  | .create name stack t₁ t₂ t₃ => (fs.echfsCreateHandler name stack t₁ t₂ t₃).map (·.2)
  | .postOpen fd mode now => (fs.echfsPostOpen fd mode now).map (·.2)
  | .write fd buf count now => (fs.echfsWrite fd buf count now).map (·.2.2)

/-- What a call needs: an unused directory entry, a free block for a new file, a write that fits. -/
def FsReady (fs : Echfs) : FsOp → Prop
  | .create _ _ _ _ _ => fs.HasUnused ∧ fs.freeBlocks.Nonempty
  | .postOpen _ _ _ => fs.HasUnused
  | .write fd _ count _ => fs.HasUnused ∧
    ∀ r fs', fs.pathResolve fd.path fd.unid = .ok (r, fs') → ∀ e, r.entry = some e →
      count ≠ 0 → fs.WriteFits e fd.seek count

/-- A call that returns, with what it needs. -/
def FsStep (fs : Echfs) (op : FsOp) (fs' : Echfs) : Prop := fs.FsReady op ∧ fs.execFs op = .ok fs'

theorem VolumeOk.step {op : FsOp} (h : fs.VolumeOk) (hstep : FsStep fs op fs') : fs'.VolumeOk := by
  obtain ⟨hready, hexec⟩ := hstep
  cases op with
  | create name stack t1 t2 t3 =>
    obtain ⟨⟨ret, fs1⟩, hr, rfl⟩ := map_eq_ok.1 hexec
    obtain ⟨hu, hfree⟩ := hready
    rcases echfsCreateHandler_ok hr with hsame | ⟨path, elem, parentId, hparent, hfs'⟩
    · exact hsame.symm ▸ h
    · obtain ⟨hlt, hvalid⟩ := h.createParent hu hparent
      rw [hfs']
      exact h.createFile hfree hu hlt hvalid
  | postOpen fd mode now =>
    obtain ⟨⟨ret, fs1⟩, hr, rfl⟩ := map_eq_ok.1 hexec
    exact h.echfsPostOpen hready hr
  | write fd buf count now =>
    obtain ⟨⟨ret, fd', fs1⟩, hr, rfl⟩ := map_eq_ok.1 hexec
    exact h.echfsWrite hready.1 hready.2 hr

/-- **The chains stay well-formed, and the data of files goes to data blocks**, in every run in
which every call finds what it needs. -/
theorem chains_kept {fs₀ : Echfs} {ops : List FsOp} (h₀ : fs₀.FreshVolume)
    (hrun : Run FsStep fs₀ ops fs) : fs.WellFormed ∧ ∀ b ∈ fs.fileWrites, fs.IsData b := by
  have hinv := hrun.invariant (I := VolumeOk) h₀.volumeOk fun _ _ _ h hstep => h.step hstep
  exact ⟨hinv.chains, hinv.writes⟩

/-- Two bytes are written to the file `a`. -/
def writeA : FsOp := .write ⟨[slash, 0x61], 5, 0⟩ (fun _ => 7) 2 1

/-- The file `b` is opened and made empty. -/
def openB : FsOp := .postOpen ⟨[slash, 0x62], 6, 0⟩ oTrunc 2

/-- The file `c` is created. -/
def createC : FsOp := .create pathC.chars (fun _ => 0) 3 3 3

theorem fsReady_writeA : twoFiles.FsReady writeA := by
  refine ⟨by decide +kernel, fun r fs' hr e he _ => ?_⟩
  have hentry : ((twoFiles.pathResolve [slash, 0x61] 5).toOption.bind (·.1.entry)).map
      (fun e => (e.entryType, e.startingBlock)) = some (echfsTypeFile, 21) := by decide +kernel
  have hr : twoFiles.pathResolve [slash, 0x61] 5 = .ok (r, fs') := hr
  rw [hr] at hentry
  obtain ⟨htype, hstart⟩ : e.entryType = echfsTypeFile ∧ e.startingBlock = 21 := by
    simpa [Except.toOption, he] using hentry
  refine ⟨htype, by decide, [21], ?_, by decide, Nat.le_add_right _ _⟩
  rw [hstart]
  exact .last (by decide +kernel)

/-- A file is written, another one is opened, and a third one is created. -/
theorem chains_kept_twoFiles : twoFiles.FreshVolume ∧
    ∃ fs, Run FsStep twoFiles [writeA, openB, createC] fs ∧
      fs.WellFormed ∧ ∀ b ∈ fs.fileWrites, fs.IsData b := by
  obtain ⟨fs1, h1, hrest⟩ := exists_ok_of_map (x := twoFiles.execFs writeA)
    (f := fun fs1 => decide fs1.HasUnused && (fs1.execFs openB).toOption.any
      fun fs2 : Echfs => decide (fs2.HasUnused ∧ 23 < fs2.blocks ∧ fs2.entry 23 = 0) &&
        (fs2.execFs createC).toOption.isSome) (b := true) (by decide +kernel)
  rw [Bool.and_eq_true, Option.any_eq_true] at hrest
  obtain ⟨hready, fs2, h2, hrest⟩ := hrest
  rw [Bool.and_eq_true] at hrest
  have hready : fs1.HasUnused := of_decide_eq_true hready
  obtain ⟨hunused, hlt, hfree⟩ := of_decide_eq_true hrest.1
  obtain ⟨fs, h3⟩ := Option.isSome_iff_exists.1 hrest.2
  have hok : ∀ {x : Except VolumeHalt Echfs} {fs}, x.toOption = some fs → x = .ok fs := by
    rintro (e | a) fs h
    · cases h
    · exact congrArg _ (Option.some.inj h)
  have hrun : Run FsStep twoFiles [writeA, openB, createC] fs :=
    ((Run.nil.snoc ⟨fsReady_writeA, h1⟩).snoc ⟨hready, hok h2⟩).snoc
      ⟨⟨hunused, 23, mem_freeBlocks.2 ⟨hlt, hfree⟩⟩, hok h3⟩
  exact ⟨freshVolume_twoFiles, fs, hrun, chains_kept freshVolume_twoFiles hrun⟩

/-- **On a full volume a new file gets the first boot block.** -/
theorem create_breaks_volume : fullVolume.FreshVolume ∧
    ∃ fs, fullVolume.echfsCreateHandler pathC.chars (fun _ => 0) 1 2 3 = .ok (0, fs) ∧
      fs.fileStart 2 = some 0 ∧ ¬ fs.WellFormed := by
  obtain ⟨file, hfile, hnone⟩ := @exists_not_found fullVolume pathC.chars (by decide +kernel)
  have hstart : (fullVolume.createFile (fun _ => 0) pathC.name echfsRootDirId 1 2 3).fileStart 2 =
      some 0 := by decide +kernel
  refine ⟨freshVolume_smallVolume (by decide +kernel) (by decide +kernel) (by decide +kernel),
    fullVolume.createFile (fun _ => 0) pathC.name echfsRootDirId 1 2 3, ?_, hstart, fun h => ?_⟩
  · rw [echfsCreateHandler_eq, hfile, ok_bind, hnone]
    rfl
  · obtain ⟨l, hl, -, hdata⟩ := h.chain 2 0 hstart
    exact absurd (hdata 0 hl.head_mem).1 (by decide +kernel)

end Echfs

end DripOS
