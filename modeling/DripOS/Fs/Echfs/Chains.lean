import DripOS.Fs.Echfs.Areas
import DripOS.Lib.Chain
import Mathlib.Data.Finset.Card

/-!
# The chains of the files

On a well-formed volume the chains of the files are finite and disjoint, and consist of data blocks
(`Echfs.WellFormed`).  `Echfs.VolumeOk` is the invariant of the driver.  It is kept by what touches
neither the table nor the keys of the main directory (`Echfs.SameFiles.volumeOk`), by a free block
that is linked behind a chain (`Echfs.VolumeOk.extendLoop`), and by the writes along a chain
(`Echfs.writesData_volumeOk`).
-/

namespace DripOS

open List Nat

namespace Echfs

variable {fs fs' : Echfs} {b c i k n t : ℕ} {e : DirEntry} {I : Echfs → Prop} {l : List ℕ}

/-- The first block of the file in a slot of the main directory. -/
def fileStart (fs : Echfs) (i : ℕ) : Option ℕ :=
  if i < fs.dirCount ∧ ¬ fs.FreeSlot i ∧ (fs.readDirEntry i).entryType = echfsTypeFile then
    some (fs.readDirEntry i).startingBlock
  else none

/-- The chains are finite, end with the mark, are disjoint, and consist of data blocks. -/
def WellFormed (fs : Echfs) : Prop := DisjointChains fs.entry echfsEndOfChain fs.IsData fs.fileStart

/-- The entries agree in the fields that say where a file is. -/
structure SameKey (e e' : DirEntry) : Prop where
  parentId : e.parentId = e'.parentId
  entryType : e.entryType = e'.entryType
  startingBlock : e.startingBlock = e'.startingBlock

/-- A copy of a used directory entry, up to its size and times. -/
structure Current (fs : Echfs) (e : DirEntry) : Prop where
  lt : e.entryNumber < fs.dirCount
  used : ¬ fs.FreeSlot e.entryNumber
  key : SameKey e (fs.readDirEntry e.entryNumber)

/-- The invariant of the driver. -/
structure VolumeOk (fs : Echfs) : Prop where
  sound : fs.Sound
  chains : fs.WellFormed
  reserved : ∀ b < fs.blocks, ¬ fs.IsData b → fs.entry b ≠ 0
  ids : ∀ k < fs.dirCount, ¬ fs.FreeSlot k → (fs.readDirEntry k).entryType = echfsTypeDir →
    ValidId (fs.readDirEntry k).startingBlock
  cached : fs.cachedDirEntries.All fun _ e => fs.Current e
  writes : ∀ b ∈ fs.fileWrites, fs.IsData b

theorem SameKey.refl : SameKey e e := ⟨rfl, rfl, rfl⟩

theorem SameKey.trans {e' e'' : DirEntry} (h : SameKey e e') (h' : SameKey e' e'') :
    SameKey e e'' :=
  ⟨h.parentId.trans h'.parentId, h.entryType.trans h'.entryType,
    h.startingBlock.trans h'.startingBlock⟩

theorem SameKey.symm {e' : DirEntry} (h : SameKey e e') : SameKey e' e :=
  ⟨h.parentId.symm, h.entryType.symm, h.startingBlock.symm⟩

theorem SameKey.freeSlot (h : SameKey (fs'.readDirEntry k) (fs.readDirEntry k)) :
    fs'.FreeSlot k ↔ fs.FreeSlot k := by
  unfold FreeSlot
  rw [h.parentId]

/-! ### Changes that keep the invariant -/

/-- The keys of the main directory are the same. -/
structure SameDir (fs fs' : Echfs) : Prop where
  shape : SameShape fs fs'
  key : ∀ k < fs.dirCount, SameKey (fs'.readDirEntry k) (fs.readDirEntry k)

/-- The entries of the main directory are the same. -/
structure SameEntries (fs fs' : Echfs) : Prop where
  shape : SameShape fs fs'
  eq : ∀ k < fs.dirCount, fs'.readDirEntry k = fs.readDirEntry k

/-- The keys of the main directory and the table are the same. -/
structure SameFiles (fs fs' : Echfs) : Prop extends SameDir fs fs' where
  entry : ∀ b < fs.blocks, fs'.entry b = fs.entry b

namespace SameEntries

theorem refl : SameEntries fs fs := ⟨.refl, fun _ _ => rfl⟩

theorem trans {fs'' : Echfs} (h : SameEntries fs fs') (h' : SameEntries fs' fs'') :
    SameEntries fs fs'' :=
  ⟨h.shape.trans h'.shape, fun k hk =>
    (h'.eq k (by rwa [h.shape.dirCount])).trans (h.eq k hk)⟩

theorem sameDir (h : SameEntries fs fs') : SameDir fs fs' :=
  ⟨h.shape, fun k hk => by
    rw [h.eq k hk]
    exact .refl⟩

end SameEntries

namespace SameDir

theorem fileStart (h : SameDir fs fs') : fs'.fileStart = fs.fileStart := by
  funext i
  unfold Echfs.fileStart
  rw [h.shape.dirCount]
  by_cases hi : i < fs.dirCount
  · have hkey := h.key i hi
    simp only [hkey.freeSlot, hkey.entryType, hkey.startingBlock]
  · rw [if_neg fun hc => hi hc.1, if_neg fun hc => hi hc.1]

theorem current (h : SameDir fs fs') (he : fs.Current e) : fs'.Current e := by
  have hkey := h.key _ he.lt
  exact ⟨h.shape.dirCount ▸ he.lt, mt hkey.freeSlot.1 he.used, he.key.trans hkey.symm⟩

/-- A change of the table keeps the invariant if the chains stay well-formed. -/
theorem volumeOk (h : SameDir fs fs') (ho : fs.VolumeOk) (hs : fs'.Sound)
    (hchains : fs'.WellFormed) (hreserved : ∀ b < fs.blocks, ¬ fs.IsData b → fs'.entry b ≠ 0)
    (hcached : fs'.cachedDirEntries.All fun _ e => fs.Current e)
    (hwrites : ∀ b ∈ fs'.fileWrites, fs.IsData b) : fs'.VolumeOk := by
  refine ⟨hs, hchains, fun b hb hdata => ?_, fun k hk hused htype => ?_,
    hcached.imp fun _ _ he => h.current he, fun b hb => h.shape.isData.2 (hwrites b hb)⟩
  · rw [h.shape.blocks] at hb
    exact hreserved b hb (mt h.shape.isData.2 hdata)
  · rw [h.shape.dirCount] at hk
    have hkey := h.key k hk
    rw [hkey.startingBlock]
    exact ho.ids k hk (mt hkey.freeSlot.2 hused) (hkey.entryType ▸ htype)

end SameDir

namespace SameFiles

theorem wellFormed (h : SameFiles fs fs') (hw : fs.WellFormed) : fs'.WellFormed := by
  have hdata : fs'.IsData = fs.IsData := funext fun b => propext h.shape.isData
  unfold WellFormed
  rw [h.fileStart, hdata]
  exact hw.congr fun c hc => h.entry c hc.2

/-- **The frame rule**: what does not touch the table and the keys keeps the invariant. -/
theorem volumeOk (h : SameFiles fs fs') (ho : fs.VolumeOk) (hs : fs'.Sound)
    (hcached : fs'.cachedDirEntries.All fun _ e => fs.Current e)
    (hwrites : ∀ b ∈ fs'.fileWrites, fs.IsData b) : fs'.VolumeOk :=
  h.toSameDir.volumeOk ho hs (h.wellFormed ho.chains)
    (fun b hb hdata => (h.entry b hb).trans_ne (ho.reserved b hb hdata)) hcached hwrites

end SameFiles

/-- The block cache may change. -/
theorem VolumeOk.blockCache (h : fs.VolumeOk) {m : Hashmap Bytes}
    (hs : ({ fs with cachedBlocks := m } : Echfs).Sound) :
    ({ fs with cachedBlocks := m } : Echfs).VolumeOk := by
  have hsame : SameFiles fs { fs with cachedBlocks := m } :=
    ⟨⟨⟨rfl, rfl, rfl, rfl⟩, fun _ _ => .refl⟩, fun _ _ => rfl⟩
  exact hsame.volumeOk h hs h.cached h.writes

/-- Writing an entry back keeps the invariant. -/
theorem VolumeOk.writeDirEntry (h : fs.VolumeOk) (he : fs.Current e) :
    (fs.writeDirEntry e.entryNumber e).VolumeOk ∧
    SameFiles fs (fs.writeDirEntry e.entryNumber e) := by
  obtain ⟨hs, htable, hothers, hraw⟩ := h.sound.writeDirEntry he.lt e
  have hfield : ∀ o n, o + n ≤ sizeofDirEntry →
      ((fs.writeDirEntry e.entryNumber e).readDirEntry e.entryNumber).raw.getLE o n =
        e.raw.getLE o n := fun o n hon =>
    Bytes.getLE_congr fun i hi => hraw (o + i) (by omega)
  have hsame : SameFiles fs (fs.writeDirEntry e.entryNumber e) := by
    refine ⟨⟨⟨rfl, rfl, rfl, rfl⟩, fun k hk => ?_⟩, htable⟩
    by_cases hke : k = e.entryNumber
    · subst hke
      have hnew : SameKey ((fs.writeDirEntry e.entryNumber e).readDirEntry e.entryNumber) e :=
        ⟨hfield 0 8 (by decide), hfield 8 1 (by decide), hfield 240 8 (by decide)⟩
      exact hnew.trans he.key
    · rw [hothers k hk hke]
      exact .refl
  exact ⟨hsame.volumeOk h hs (h.cached.dropFirst _) h.writes, hsame⟩

/-! ### Lookups -/

/-- The main directory is not full. -/
def HasUnused (fs : Echfs) : Prop := ∃ k < fs.dirCount, (fs.readDirEntry k).parentId = 0

instance : Decidable fs.HasUnused := inferInstanceAs (Decidable (∃ k < fs.dirCount, _))

/-- A search in a directory with a valid id finds used entries. -/
theorem HasUnused.found (hu : fs.HasUnused) {name : List UInt8} {id : ℕ} (hid : ValidId id)
    (hfind : fs.findEntryNameParent name id = .ok i) (hi : i ≠ echfsSearchFail) :
    i < fs.dirCount ∧ ¬ fs.FreeSlot i := by
  obtain ⟨-, hmatch, hpass⟩ := lt_of_findEntryNameParent hfind hi
  obtain ⟨k, hk, hz⟩ := hu
  refine ⟨Nat.lt_of_le_of_lt (Nat.le_of_not_lt fun hlt => (hpass k hlt).2 hz) hk, ?_⟩
  rintro (h | h)
  · exact hid.1 (hmatch.1.symm.trans h)
  · exact hid.2 (hmatch.1.symm.trans h)

namespace VolumeOk

variable {path : List UInt8}

theorem resolveUncached (h : fs.VolumeOk) (hu : fs.HasUnused)
    (he : fs.resolveUncached path = .ok ⟨some e, c⟩) : fs.Current e := by
  have hdir : ∀ name q i, ValidId q → fs.findEntryNameParent name q = .ok i →
      i ≠ echfsSearchFail → (fs.readDirEntry i).entryType = echfsTypeDir →
      ValidId (fs.readDirEntry i).startingBlock := by
    intro name q i hq hfind hi htype
    obtain ⟨hlt, hused⟩ := hu.found hq hfind hi
    exact h.ids i hlt hused htype
  obtain ⟨name, q, i, hq, hfind, hi, rfl, rfl⟩ := resolveUncached_some hdir validId_root he
  exact ⟨(hu.found hq hfind hi).1, (hu.found hq hfind hi).2, rfl, rfl, rfl⟩

/-- `echfs_path_resolve` returns a copy of a used entry. -/
theorem pathResolve (h : fs.VolumeOk) (hu : fs.HasUnused) {unid : ℕ} {r : Resolved}
    (hr : fs.pathResolve path unid = .ok (r, fs')) :
    fs'.VolumeOk ∧ (∃ m, fs' = { fs with cachedDirEntries := m }) ∧
    ∀ e, r.entry = some e → fs.Current e := by
  have hcache : ∀ m : Hashmap DirEntry, (m.All fun _ e => fs.Current e) →
      ({ fs with cachedDirEntries := m } : Echfs).VolumeOk := fun m hm => by
    have hsame : SameFiles fs { fs with cachedDirEntries := m } :=
      ⟨⟨⟨rfl, rfl, rfl, rfl⟩, fun _ _ => .refl⟩, fun _ _ => rfl⟩
    have hs := h.sound
    have hsound : ({ fs with cachedDirEntries := m } : Echfs).Sound :=
      ⟨hsame.shape.mounted hs.mounted ⟨hs.mounted.coherent.plain, hs.mounted.coherent.agree⟩,
        hs.tableCached⟩
    exact hsame.volumeOk h hsound hm h.writes
  unfold Echfs.pathResolve at hr
  split_ifs at hr with hid
  · obtain ⟨hget, hrest⟩ := @Hashmap.All.getElem _ _ unid _ h.cached
    rcases hm : fs.cachedDirEntries.getElem unid with ⟨cached, m⟩
    rw [hm] at hr hget hrest
    cases cached with
    | some entry =>
      cases hr
      refine ⟨hcache m hrest, ⟨m, rfl⟩, fun e he => ?_⟩
      obtain rfl := Option.some.inj he
      exact hget _ rfl
    | none =>
      obtain ⟨r', hr', hr⟩ := bind_eq_ok.1 hr
      rw [resolveUncached_dirCache] at hr'
      obtain ⟨entry, c⟩ := r'
      cases entry with
      | none =>
        cases hr
        exact ⟨hcache m hrest, ⟨m, rfl⟩, fun e he => by cases he⟩
      | some entry =>
        cases hr
        have hcur := h.resolveUncached hu hr'
        refine ⟨hcache _ (hrest.setElem hcur), ⟨_, rfl⟩, fun e he => ?_⟩
        obtain rfl := Option.some.inj he
        exact hcur
  · obtain ⟨r', hr', hr⟩ := bind_eq_ok.1 hr
    cases hr
    refine ⟨h, ⟨_, rfl⟩, fun e he => ?_⟩
    obtain ⟨entry, c⟩ := r
    cases he
    exact h.resolveUncached hu hr'

/-- The directory in which a file is created has a valid id. -/
theorem createParent (h : fs.VolumeOk) (hu : fs.HasUnused) {parentId : ℕ}
    (hp : fs.createParent path = .ok (.inr parentId)) : parentId < 2 ^ 64 ∧ ValidId parentId := by
  unfold Echfs.createParent at hp
  split_ifs at hp
  · obtain ⟨⟨r, fs'⟩, hr, hp⟩ := bind_eq_ok.1 hp
    obtain ⟨-, -, hcur⟩ := h.pathResolve hu hr
    obtain ⟨entry, c⟩ := r
    cases entry with
    | none => cases hp
    | some dir =>
      dsimp only at hp
      split_ifs at hp with htype
      · cases hp
      · obtain rfl : dir.startingBlock = parentId := Sum.inr.inj (Except.ok.inj hp)
        have hdir := hcur dir rfl
        refine ⟨dir.startingBlock_lt, ?_⟩
        rw [hdir.key.startingBlock]
        exact h.ids _ hdir.lt hdir.used (hdir.key.entryType ▸ not_not.1 htype)
  · obtain rfl : echfsRootDirId = parentId := Sum.inr.inj (Except.ok.inj hp)
    exact ⟨by decide, validId_root⟩

end VolumeOk

/-! ### Walks along a chain -/

theorem CacheOf.sameEntries (h : CacheOf fs fs') : SameEntries fs fs' := by
  obtain ⟨m, rfl⟩ := h
  exact ⟨⟨rfl, rfl, rfl, rfl⟩, fun _ _ => rfl⟩

theorem CacheOf.volumeOk (h : CacheOf fs fs') (ho : fs.VolumeOk) (hs : fs'.Sound) :
    fs'.VolumeOk := by
  obtain ⟨m, rfl⟩ := h
  exact ho.blockCache hs

/-- Table entries can be read in the states that satisfy `I`, which changes only the cache. -/
def ReadsTable (I : Echfs → Prop) : Prop :=
  ∀ fs b, I fs → b < fs.blocks → (fs.getEntryForBlock b).1 = fs.entry b ∧
    I (fs.getEntryForBlock b).2 ∧ CacheOf fs (fs.getEntryForBlock b).2

theorem readsTable_sound : ReadsTable Sound := fun _ _ h hb => h.getEntryForBlock hb

/-- The first loop of `allocate_blocks_for_file`: the length of the chain and its last block. -/
theorem ReadsTable.chainLoop (hI : ReadsTable I) (h : I fs)
    (hl : ChainFrom fs.entry echfsEndOfChain b l) (hlt : ∀ c ∈ l, c < fs.blocks) {fuel : ℕ}
    (hfuel : l.length ≤ fuel) (hn : n + l.length < 2 ^ 64) :
    ∃ t fs', chainLoop fuel n b fs = .ok (n + l.length, t, fs') ∧ l.getLast? = some t ∧
      I fs' ∧ CacheOf fs fs' := by
  generalize hnext : fs.entry = next at hl
  induction hl generalizing fuel n fs with
  | @last b hb =>
    obtain ⟨fuel, rfl⟩ := exists_eq_succ_of_ne_zero (Nat.ne_of_gt hfuel)
    obtain ⟨hentry, hs, hm⟩ := hI fs b h (hlt b mem_cons_self)
    rw [hnext, hb] at hentry
    refine ⟨b, _, ?_, rfl, hs, hm⟩
    rw [length_singleton] at hn ⊢
    rw [Echfs.chainLoop, hentry, if_pos rfl, mod_eq_of_lt hn]
  | @cons b l hne hl ih =>
    rw [length_cons] at hfuel hn
    obtain ⟨fuel, rfl⟩ := exists_eq_succ_of_ne_zero (n := fuel) (by omega)
    obtain ⟨hentry, hs, hm⟩ := hI fs b h (hlt b mem_cons_self)
    -- the entry is read a second time
    have hb' : b < (fs.getEntryForBlock b).2.blocks := by
      rw [hm.shape.blocks]
      exact hlt b mem_cons_self
    obtain ⟨hentry', hs', hm'⟩ := hI _ b hs hb'
    have hcache := hm.trans hm'
    rw [hm.entry_eq, hnext] at hentry'
    rw [hnext] at hentry
    have hlt' : ∀ c ∈ l, c < ((fs.getEntryForBlock b).2.getEntryForBlock b).2.blocks :=
      fun c hc => by
        rw [hcache.shape.blocks]
        exact hlt c (mem_cons_of_mem b hc)
    obtain ⟨t, fs', hloop, ht, hs'', hm''⟩ : ∃ t fs', Echfs.chainLoop fuel (n + 1) (next b)
        ((fs.getEntryForBlock b).2.getEntryForBlock b).2 = .ok (n + 1 + l.length, t, fs') ∧ _ :=
      ih hs' hlt' (by omega) (by omega) (by rw [hcache.entry_eq, hnext])
    refine ⟨t, fs', ?_, ?_, hs'', hcache.trans hm''⟩
    · rw [Echfs.chainLoop, hentry, if_neg hne, mod_eq_of_lt (by omega)]
      dsimp only
      rw [hentry', hloop, length_cons, Nat.add_assoc, Nat.add_comm 1]
    · rw [List.getLast?_cons_of_ne_nil hl.ne_nil, ht]

theorem ReadsTable.skipLoop (hI : ReadsTable I) (h : I fs)
    (hl : ChainFrom fs.entry echfsEndOfChain b l) (hlt : ∀ c ∈ l, c < fs.blocks) :
    ∃ fs', skipLoop n b fs = (l[n]?, fs') ∧ I fs' ∧ CacheOf fs fs' := by
  induction n generalizing fs b l with
  | zero =>
    obtain ⟨l', rfl⟩ : ∃ l', l = b :: l' := by cases hl <;> exact ⟨_, rfl⟩
    exact ⟨fs, rfl, h, _, rfl⟩
  | succ n ih =>
    obtain ⟨hentry, hs, hm⟩ := hI fs b h (hlt b hl.head_mem)
    rw [Echfs.skipLoop, hentry]
    cases hl with
    | last hb =>
      rw [if_pos hb]
      exact ⟨_, by simp, hs, hm⟩
    | @cons b l hne hl =>
      obtain ⟨fs', hloop, hs', hm'⟩ := ih hs (by rw [hm.entry_eq]; exact hl)
        fun c hc => by rw [hm.shape.blocks]; exact hlt c (mem_cons_of_mem b hc)
      rw [if_neg hne]
      exact ⟨fs', hloop, hs', hm.trans hm'⟩

/-! ### Extending a chain -/

/-- The free blocks. -/
def freeBlocks (fs : Echfs) : Finset ℕ := {b ∈ Finset.range fs.blocks | fs.entry b = 0}

theorem mem_freeBlocks : b ∈ fs.freeBlocks ↔ b < fs.blocks ∧ fs.entry b = 0 := by
  rw [freeBlocks, Finset.mem_filter, Finset.mem_range]

/-- A free block that is linked behind a used one is no longer free, and no other block becomes
free. -/
theorem card_free_link {e e' : ℕ → ℕ}
    (he : ∀ d, e' d = if d = c then echfsEndOfChain else if d = t then c else e d) (hc : c < n)
    (hzero : e c = 0) (hc0 : c ≠ 0) (ht : e t ≠ 0) :
    {b ∈ Finset.range n | e' b = 0}.card + 1 = {b ∈ Finset.range n | e b = 0}.card := by
  have hset : {b ∈ Finset.range n | e' b = 0} = {b ∈ Finset.range n | e b = 0}.erase c := by
    ext d
    simp only [Finset.mem_erase, Finset.mem_filter, he]
    split_ifs with hdc hdt
    · simp [hdc, echfsEndOfChain]
    · subst hdt
      simp [hc0, ht]
    · simp [hdc]
  rw [hset, Finset.card_erase_add_one (Finset.mem_filter.2 ⟨Finset.mem_range.2 hc, hzero⟩)]

/-- A free block is a data block and on no chain. -/
theorem VolumeOk.free (h : fs.VolumeOk) (hc : c < fs.blocks) (hzero : fs.entry c = 0) :
    DisjointChains.Free fs.entry echfsEndOfChain fs.IsData fs.fileStart c ∧ c ≠ 0 := by
  have hdata : fs.IsData c := by
    by_contra hdata
    exact h.reserved c hc hdata hzero
  have h16 := h.sound.mounted.le_mainDirBlock
  have hblocks := h.sound.mounted.blocks_lt
  have hstart : fs.mainDirBlock ≤ c := le_trans (Nat.le_add_right _ _) hdata.1
  refine ⟨h.chains.free_of_next hdata ?_ ?_ ?_, by omega⟩
  · unfold echfsEndOfChain
    omega
  · rw [hzero]
    decide
  · rw [hzero]
    intro h0
    have : fs.mainDirBlock ≤ 0 := le_trans (Nat.le_add_right _ _) h0.1
    omega

/-- The contents of the data blocks are the same. -/
def SameData (fs fs' : Echfs) : Prop :=
  ∀ d, fs.IsData d → ∀ i < fs.blockSize,
    fs'.disk (d * fs.blockSize + i) = fs.disk (d * fs.blockSize + i)

theorem SameData.trans {fs'' : Echfs} (hshape : SameShape fs fs') (h : SameData fs fs')
    (h' : SameData fs' fs'') : SameData fs fs'' := fun d hd i hi => by
  have hstep := h' d (hshape.isData.2 hd) i (by rwa [hshape.blockSize])
  rw [hshape.blockSize] at hstep
  exact hstep.trans (h d hd i hi)

theorem CacheOf.sameData (h : CacheOf fs fs') : SameData fs fs' := by
  obtain ⟨m, rfl⟩ := h
  exact fun _ _ _ _ => rfl

/-- A number in the table does not lie in a data block. -/
theorem Mounted.sameData_putLE (h : fs.Mounted) (hb : b < fs.blocks) {v : ℕ}
    (hdisk : fs'.disk = fs.disk.putLE (16 * fs.blockSize + 8 * b) 8 v) : SameData fs fs' :=
  fun d hd i _ => by
    have hpos := (h.isData_position hd).1 b hb
    rw [hdisk, Bytes.putLE_of_disjoint (Or.inr (by omega))]

/-- The block `c` was linked behind `t`, and nothing else has changed. -/
structure LinkedBehind (fs fs' : Echfs) (t c : ℕ) : Prop where
  sound : fs'.Sound
  dir : SameEntries fs fs'
  data : SameData fs fs'
  cached : fs'.cachedDirEntries = fs.cachedDirEntries
  writes : fs'.fileWrites = fs.fileWrites
  entry : ∀ d, fs'.entry d = if d = c then echfsEndOfChain else if d = t then c else fs.entry d

theorem Sound.link (h : fs.Sound) (ht : t < fs.blocks) (hc : c < fs.blocks) :
    LinkedBehind fs ((fs.setEntryForBlock t c).setEntryForBlock c echfsEndOfChain) t c := by
  obtain ⟨hs1, m1, h1⟩ := h.setEntryForBlock ht c
  have hc1 : c < (fs.setEntryForBlock t c).blocks := by rw [h1]; exact hc
  obtain ⟨hs2, m2, h2⟩ := hs1.setEntryForBlock hc1 echfsEndOfChain
  have hdir1 : ∀ k < fs.dirCount, (fs.setEntryForBlock t c).readDirEntry k = fs.readDirEntry k :=
    fun k hk => by
      rw [h1]
      exact h.mounted.readDirEntry_putLE (h.mounted.inSpace hk) ht
  have hshape1 : SameShape fs (fs.setEntryForBlock t c) := by rw [h1]; exact ⟨rfl, rfl, rfl, rfl⟩
  have hc64 : c % 2 ^ 64 = c := mod_eq_of_lt (by have := h.mounted.blocks_lt; omega)
  have hdata1 : SameData fs (fs.setEntryForBlock t c) := h.mounted.sameData_putLE ht (by rw [h1])
  refine ⟨hs2, ⟨?_, fun k hk => ?_⟩, ?_, ?_, ?_, fun d => ?_⟩
  · refine hshape1.trans ?_
    rw [h2]
    exact ⟨rfl, rfl, rfl, rfl⟩
  · have hk1 : k < (fs.setEntryForBlock t c).dirCount := by rwa [hshape1.dirCount]
    rw [h2, hs1.mounted.readDirEntry_putLE (hs1.mounted.inSpace hk1) hc1, hdir1 k hk]
  · exact hdata1.trans hshape1 (hs1.mounted.sameData_putLE hc1 (by rw [h2]))
  · rw [h2]
    rw [h1]
  · rw [h2]
    rw [h1]
  · rw [h2, entry_setEntry, h1, entry_setEntry, hc64]
    rfl

/-- One round of the second loop of `allocate_blocks_for_file`. -/
def linkFree (fs : Echfs) (t : ℕ) : Echfs :=
  (fs.findFreeBlock.2.setEntryForBlock t fs.findFreeBlock.1).setEntryForBlock fs.findFreeBlock.1
    echfsEndOfChain

theorem extendLoop_succ (n t : ℕ) :
    extendLoop (n + 1) t fs = extendLoop n fs.findFreeBlock.1 (fs.linkFree t) := rfl

/-- Free blocks were linked behind the chain `l`, and nothing else has changed. -/
structure Extended (fs fs' : Echfs) (l : List ℕ) : Prop extends SameEntries fs fs' where
  data : SameData fs fs'
  entry : ∀ d ∉ l, fs.entry d ≠ 0 → fs'.entry d = fs.entry d

section

variable (h : fs.VolumeOk) (hi : fs.fileStart i = some b)
  (hl : ChainFrom fs.entry echfsEndOfChain b l)
include h hi hl

theorem VolumeOk.linkFree (ht : l.getLast? = some t) (hfree : fs.freeBlocks.Nonempty) :
    (fs.linkFree t).VolumeOk ∧ Extended fs (fs.linkFree t) l ∧
    fs.entry fs.findFreeBlock.1 = 0 ∧
    ChainFrom (fs.linkFree t).entry echfsEndOfChain b (l ++ [fs.findFreeBlock.1]) ∧
    (fs.linkFree t).freeBlocks.card + 1 = fs.freeBlocks.card := by
  obtain ⟨b0, hb0⟩ := hfree
  obtain ⟨hs, hm, hc, hzero⟩ := h.sound.findFreeBlock ⟨b0, mem_freeBlocks.1 hb0⟩
  have htl := List.mem_of_getLast? ht
  have htdata : fs.IsData t := h.chains.ok_of_mem hi hl htl
  have hlink : LinkedBehind fs.findFreeBlock.2 (fs.linkFree t) t fs.findFreeBlock.1 :=
    hs.link (by rw [hm.shape.blocks]; exact htdata.2) (by rw [hm.shape.blocks]; exact hc)
  have hent : SameEntries fs (fs.linkFree t) := hm.sameEntries.trans hlink.dir
  have hdir := hent.sameDir
  have hsameData : SameData fs (fs.linkFree t) := hm.sameData.trans hm.shape hlink.data
  have hentry := hlink.entry
  rw [hm.entry_eq] at hentry
  obtain ⟨m, hm⟩ := hm
  generalize fs.linkFree t = fs' at *
  generalize fs.findFreeBlock.1 = c at *
  obtain ⟨hcfree, hc0⟩ := h.free hc hzero
  have htc : t ≠ c := fun htc => hcfree.2.2 i b l hi hl (htc ▸ htl)
  have htfree : fs.entry t ≠ 0 := fun htz => (h.free htdata.2 htz).1.2.2 i b l hi hl htl
  have hnt : fs'.entry t = c := by rw [hentry, if_neg htc, if_pos rfl]
  have hnc : fs'.entry c = echfsEndOfChain := by rw [hentry, if_pos rfl]
  obtain ⟨hchains, hchain⟩ := h.chains.extend hi hl ht hcfree hnt hnc
    fun d hdt hdc => by rw [hentry, if_neg hdc, if_neg hdt]
  have hdata : fs'.IsData = fs.IsData := funext fun b => propext hdir.shape.isData
  have hext : Extended fs fs' l := ⟨hent, hsameData, fun d hd hused => by
    have hdc : d ≠ c := fun hdc => hused (hdc ▸ hzero)
    have hdt : d ≠ t := fun hdt => hd (hdt ▸ htl)
    rw [hentry, if_neg hdc, if_neg hdt]⟩
  refine ⟨hdir.volumeOk h hlink.sound ?_ (fun b hb hbdata => ?_) ?_ ?_, hext, hzero, hchain, ?_⟩
  · unfold WellFormed
    rw [hdir.fileStart, hdata]
    exact hchains
  · rw [hentry]
    split_ifs
    · decide
    · exact hc0
    · exact h.reserved b hb hbdata
  · rw [hlink.cached, hm]
    exact h.cached
  · rw [hlink.writes, hm]
    exact h.writes
  · rw [freeBlocks, hdir.shape.blocks]
    exact card_free_link hentry hc hzero hc0 htfree

theorem VolumeOk.extendLoop (ht : l.getLast? = some t) (hn : n ≤ fs.freeBlocks.card) :
    (extendLoop n t fs).VolumeOk ∧ Extended fs (extendLoop n t fs) l ∧
    ∃ l', ChainFrom (extendLoop n t fs).entry echfsEndOfChain b (l ++ l') ∧ l'.length = n := by
  induction n generalizing fs l t with
  | zero =>
    refine ⟨h, ⟨.refl, fun _ _ _ _ => rfl, fun _ _ _ => rfl⟩, [], ?_, rfl⟩
    rwa [append_nil]
  | succ n ih =>
    have hfree : fs.freeBlocks.Nonempty := Finset.card_pos.1 (by omega)
    obtain ⟨hok, hext, hzero, hl', hcard⟩ := h.linkFree hi hl ht hfree
    rw [extendLoop_succ]
    obtain ⟨hok', hext', l', hl'', hlen⟩ := ih hok (by rw [hext.sameDir.fileStart, hi]) hl'
      List.getLast?_concat (by omega)
    refine ⟨hok', ⟨hext.toSameEntries.trans hext'.toSameEntries,
      hext.data.trans hext.shape hext'.data, fun d hd hused => ?_⟩, fs.findFreeBlock.1 :: l',
      by rwa [append_cons], by rw [length_cons, hlen]⟩
    -- a block in use is not the one that was linked
    have hsame := hext.entry d hd hused
    have hd' : d ∉ l ++ [fs.findFreeBlock.1] := fun hmem => by
      rcases mem_append.1 hmem with hmem | hmem
      · exact hd hmem
      · exact hused (mem_singleton.1 hmem ▸ hzero)
    rw [hext'.entry d hd' (hsame.trans_ne hused), hsame]

end

/-- `allocate_blocks_for_file` makes the chain as long as it is asked to, with enough free blocks
and a chain that is not longer already. -/
theorem VolumeOk.allocateBlocksForFile (h : fs.VolumeOk) {total : ℕ}
    (hi : fs.fileStart i = some e.startingBlock)
    (hl : ChainFrom fs.entry echfsEndOfChain e.startingBlock l) (hlen : l.length ≤ total)
    (htotal : total < 2 ^ 64) (hroom : total ≤ l.length + fs.freeBlocks.card) :
    ∃ fs' l', fs.allocateBlocksForFile e total = .ok fs' ∧ fs'.VolumeOk ∧ Extended fs fs' l ∧
      ChainFrom fs'.entry echfsEndOfChain e.startingBlock (l ++ l') ∧
      (l ++ l').length = total := by
  obtain ⟨t, fs1, hloop, ht, hs, hm⟩ : ∃ t fs1, chainLoop (2 ^ 64) 0 e.startingBlock fs =
      .ok (0 + l.length, t, fs1) ∧ _ :=
    readsTable_sound.chainLoop h.sound hl (fun c hc => (h.chains.ok_of_mem hi hl hc).2)
      (by omega) (by omega)
  have hsub : (total + 2 ^ 64 - l.length) % 2 ^ 64 = total - l.length := by omega
  have hdir := hm.sameEntries.sameDir
  have hfree : fs1.freeBlocks = fs.freeBlocks := by
    unfold freeBlocks
    rw [hm.entry_eq, hm.shape.blocks]
  obtain ⟨hok, hext, l', hl', hlen'⟩ := (hm.volumeOk h hs).extendLoop (n := total - l.length)
    (by rw [hdir.fileStart, hi]) (by rw [hm.entry_eq]; exact hl) ht (by rw [hfree]; omega)
  have hentry := hext.entry
  rw [hm.entry_eq] at hentry
  refine ⟨_, l', ?_, hok, ⟨hm.sameEntries.trans hext.toSameEntries,
    hm.sameData.trans hm.shape hext.data, hentry⟩, hl', by rw [length_append]; omega⟩
  unfold Echfs.allocateBlocksForFile
  rw [hloop, ok_bind, Nat.zero_add]
  dsimp only
  rw [hsub]
  rfl

/-! ### Mounted volumes -/

/-- A volume that was just mounted: the reserved blocks are not free, and the directories have valid
ids. -/
structure FreshVolume (fs : Echfs) : Prop where
  mounted : fs.Mounted
  blockCache : fs.cachedBlocks = .init
  dirCache : fs.cachedDirEntries = .init
  writes : fs.fileWrites = []
  chains : fs.WellFormed
  reserved : ∀ b < fs.blocks, ¬ fs.IsData b → fs.entry b ≠ 0
  ids : ∀ k < fs.dirCount, ¬ fs.FreeSlot k → (fs.readDirEntry k).entryType = echfsTypeDir →
    ValidId (fs.readDirEntry k).startingBlock

theorem FreshVolume.volumeOk (h : fs.FreshVolume) : fs.VolumeOk := by
  refine ⟨⟨h.mounted, fun b d hd => ?_⟩, h.chains, h.reserved, h.ids, ?_, fun b hb => ?_⟩
  · rw [h.blockCache] at hd
    cases hd
  · rw [h.dirCache]
    exact Hashmap.all_init
  · rw [h.writes] at hb
    cases hb

/-- Files of one block each, with different blocks. -/
theorem wellFormed_of_single
    (hstart : ∀ i b, fs.fileStart i = some b → fs.IsData b ∧ fs.entry b = echfsEndOfChain)
    (hne : ∀ i j b, fs.fileStart i = some b → fs.fileStart j = some b → i = j) :
    fs.WellFormed := by
  have hchain : ∀ i b l, fs.fileStart i = some b → ChainFrom fs.entry echfsEndOfChain b l →
      l = [b] := fun i b l hi hl => hl.unique (.last (hstart i b hi).2)
  refine ⟨fun i b hi => ?_, fun i j b b' l l' hij hi hj hl hl' => ?_⟩
  · obtain ⟨hdata, hend⟩ := hstart i b hi
    exact ⟨[b], .last hend, nodup_singleton b, fun c hc => mem_singleton.1 hc ▸ hdata⟩
  · rw [hchain i b l hi hl, hchain j b' l' hj hl', singleton_disjoint, mem_singleton]
    rintro rfl
    exact hij (hne i j b hi hj)

/-- A small volume with two files, in blocks 21 and 22. -/
theorem freshVolume_smallVolume {disk : Bytes}
    (hfiles : ∀ i < 4, (smallVolume disk).fileStart i =
      if i = 0 then some 21 else if i = 1 then some 22 else none)
    (hend : ∀ b < 23, (smallVolume disk).entry b = echfsEndOfChain)
    (hids : ∀ i < 4, (smallVolume disk).FreeSlot i ∨
      ((smallVolume disk).readDirEntry i).entryType = echfsTypeFile) :
    (smallVolume disk).FreshVolume := by
  have hcount : (smallVolume disk).dirCount = 4 :=
    show 4 * 256 % 2 ^ 64 / sizeofDirEntry = 4 by decide
  have hstart : ∀ i b, (smallVolume disk).fileStart i = some b →
      i = 0 ∧ b = 21 ∨ i = 1 ∧ b = 22 := by
    intro i b hi
    by_cases hlt : i < 4
    · rw [hfiles i hlt] at hi
      split_ifs at hi with h0 h1
      · exact Or.inl ⟨h0, (Option.some.inj hi).symm⟩
      · exact Or.inr ⟨h1, (Option.some.inj hi).symm⟩
    · rw [fileStart, if_neg fun h => hlt (hcount ▸ h.1)] at hi
      cases hi
  refine ⟨mounted_smallVolume disk, rfl, rfl, rfl, ?_, fun b hb hdata => ?_,
    fun k hk hused htype => ?_⟩
  · refine wellFormed_of_single (fun i b hi => ?_) fun i j b hi hj => ?_
    · have hb : 21 ≤ b ∧ b < 23 := by
        have h := hstart i b hi
        omega
      exact ⟨⟨hb.1, lt_succ_of_lt hb.2⟩, hend b hb.2⟩
    · have h := hstart i b hi
      have h' := hstart j b hj
      omega
  · have hlt : b < 23 := Nat.lt_of_not_le fun h => hdata ⟨(show 21 ≤ 23 by decide).trans h, hb⟩
    rw [hend b hlt]
    decide
  · have hfile := (hids k (hcount ▸ hk)).resolve_left hused
    rw [hfile] at htype
    exact absurd htype (by decide)

end Echfs

end DripOS
