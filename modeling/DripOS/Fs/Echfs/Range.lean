import DripOS.Fs.Echfs.Allocate
import DripOS.Fs.Echfs.Write

/-!
# Reading and writing ranges of files

`read_for_range` reads the blocks of a range into a buffer and copies the range out of it;
`write_for_range` changes the range in the buffer and writes the blocks back.  Both walk along the
chain, and give up when it ends.  The end of the range is rounded up to whole blocks in 64-bit
arithmetic; when it wraps around to `0`, the number of blocks is too small
(`Echfs.blocksToRead_wrap`).  The buffers come from `kcalloc`, which rounds their sizes up to pages
in 64-bit arithmetic too; `heap` says whether it finds memory, one call after the other.

* `Echfs.Usable.readForRange_iff` : **when `read_for_range` returns the bytes of the range, or
  nothing if the chain is too short**;
* `Echfs.Mounted.writeForRange_iff` : **when `write_for_range` changes the range and nothing else.**
-/

namespace DripOS

open Nat List Finset Bytes

namespace Echfs

section Model

variable (fs : Echfs)

/-- The second loop of `read_blocks_for_range`, with `n` blocks to go, at `pos` in the buffer. -/
def readLoop : (n currentBlock pos : ℕ) → (buffer : Bytes) → (fs : Echfs) → Option Bytes × Echfs
  | 0, _, _, buffer, fs => (some buffer, fs)
  | n + 1, currentBlock, pos, buffer, fs =>
    let r := fs.readBlock currentBlock
    let buffer := buffer.patch pos fs.blockSize r.1
    if n = 0 then (some buffer, r.2)
    else
      let r := r.2.getEntryForBlock currentBlock
      if r.1 = echfsEndOfChain then (none, r.2)
      else readLoop n r.1 (pos + fs.blockSize) buffer r.2

/-- `blocks_to_read`. -/
def blocksToRead (start count : ℕ) : ℕ :=
  (roundUp ((start + count) % 2 ^ 64) fs.blockSize + 2 ^ 64 - roundDown start fs.blockSize) %
    2 ^ 64 / fs.blockSize

/-- The size of the buffer for the blocks. -/
def blockBytes (start count : ℕ) : ℕ := fs.blocksToRead start count * fs.blockSize

/-- `kcalloc`; a size that wraps around gives a block of a few pages, which `memset` leaves. -/
def kcalloc (found : Bool) (size : ℕ) : Except VolumeHalt Unit :=
  if found = false then .error .noMemory
  else if size + 0x2fff < 2 ^ 64 then .ok ()
  else .error .fault

/-- `read_blocks_for_range`. -/
def readBlocksForRange (found : Bool) (file : DirEntry) (readStart readCount : ℕ) :
    Except VolumeHalt (Option Bytes × Echfs) := do
  let blocksToRead := fs.blocksToRead readStart readCount
  let startBlock := roundDown readStart fs.blockSize / fs.blockSize
  kcalloc found (fs.blockBytes readStart readCount)
  match skipLoop startBlock file.startingBlock fs with
  | (none, fs') => .ok (none, fs')
  | (some currentBlock, fs') => .ok (readLoop blocksToRead currentBlock 0 (fun _ => 0) fs')

/-- `read_for_range`: the bytes of the output, or `none` for null. -/
def readForRange (heap : ℕ → Bool) (file : DirEntry) (readStart readCount : ℕ) :
    Except VolumeHalt (Option (List UInt8) × Echfs) := do
  match ← fs.readBlocksForRange (heap 0) file readStart readCount with
  | (none, fs') => .ok (none, fs')
  | (some blockBuffer, fs') =>
    kcalloc (heap 1) readCount
    let offset := readStart % fs.blockSize
    if offset + readCount ≤ fs.blockBytes readStart readCount then
      .ok (some (toList (fun i => blockBuffer (offset + i)) readCount), fs')
    else .error .fault

/-- `write_for_range`; `data` is the memory from the pointer on. -/
def writeForRange (found : Bool) (file : DirEntry) (writeStart writeCount : ℕ) (data : Bytes) :
    Except VolumeHalt (ℕ × Echfs) := do
  match ← fs.readBlocksForRange found file writeStart writeCount with
  | (none, fs') => .ok (1, fs')
  | (some blockBuffer, fs') =>
    let offset := writeStart % fs.blockSize
    if offset + writeCount ≤ fs.blockBytes writeStart writeCount then
      let r := fs'.writeBlocksForRange file writeStart writeCount
        (blockBuffer.patch offset writeCount data)
      .ok (if r.1 ≠ 0 then 1 else 0, r.2)
    else .error .fault

end Model

variable {fs fs' : Echfs} {b n p start count : ℕ} {l : List ℕ} {file : DirEntry} {data : Bytes}

/-! ### The bytes of a chain -/

theorem chainBytes_cons_of_lt (hp : p < fs.blockSize) :
    fs.chainBytes (b :: l) p = fs.disk (b * fs.blockSize + p) := by
  rw [chainBytes, div_eq_of_lt hp, mod_eq_of_lt hp]
  rfl

theorem chainBytes_cons_add (hpos : 0 < fs.blockSize) :
    fs.chainBytes (b :: l) (fs.blockSize + p) = fs.chainBytes l p := by
  rw [chainBytes, chainBytes, add_div_left _ hpos, add_mod_left]
  rfl

theorem chainBytes_drop (hpos : 0 < fs.blockSize) :
    fs.chainBytes (l.drop n) p = fs.chainBytes l (n * fs.blockSize + p) := by
  rw [chainBytes, chainBytes, Nat.add_comm (n * _), add_mul_div_right _ _ hpos,
    add_mul_mod_self_right, getD_eq_getElem?_getD, getD_eq_getElem?_getD,
    List.getElem?_drop, Nat.add_comm n]

theorem CacheOf.chainBytes_eq (h : CacheOf fs fs') : fs'.chainBytes l = fs.chainBytes l := by
  obtain ⟨m, rfl⟩ := h
  rfl

/-! ### Reading blocks -/

theorem Usable.readBlock (h : fs.Usable) (hb : b < fs.blocks) :
    (∀ i < fs.blockSize, (fs.readBlock b).1 i = fs.disk (b * fs.blockSize + i)) ∧
    (fs.readBlock b).2.Usable ∧ CacheOf fs (fs.readBlock b).2 := by
  obtain ⟨hread, hcoh, hm⟩ := readBlock_spec h.coherent h.addressable.pos (h.addressable.block hb)
  have hm : CacheOf fs (fs.readBlock b).2 := hm
  exact ⟨hread, ⟨hcoh, h.addressable.of_eq hm.shape.blocks hm.shape.blockSize⟩, hm⟩

/-- The blocks come one behind the other into the buffer. -/
theorem Usable.readLoop (h : fs.Usable) (hl : ChainFrom fs.entry echfsEndOfChain b l)
    (hlt : ∀ c ∈ l, c < fs.blocks) (hn : n ≤ l.length) (pos : ℕ) (buffer : Bytes) :
    ∃ buffer' fs', Echfs.readLoop n b pos buffer fs = (some buffer', fs') ∧ fs'.Usable ∧
      CacheOf fs fs' ∧ (∀ i < n * fs.blockSize, buffer' (pos + i) = fs.chainBytes l i) ∧
      ∀ i < pos, buffer' i = buffer i := by
  induction n generalizing fs b l pos buffer with
  | zero => exact ⟨buffer, fs, rfl, h, ⟨_, rfl⟩, fun i hi => by omega, fun _ _ => rfl⟩
  | succ n ih =>
    have hpos := h.addressable.pos
    obtain ⟨l', rfl⟩ : ∃ l', l = b :: l' := by cases hl <;> exact ⟨_, rfl⟩
    have hb := hlt b mem_cons_self
    obtain ⟨hread, hu, hm⟩ := h.readBlock hb
    have hfirst : ∀ i < fs.blockSize,
        buffer.patch pos fs.blockSize (fs.readBlock b).1 (pos + i) = fs.chainBytes (b :: l') i :=
      fun i hi => by rw [patch_add hi, hread i hi, chainBytes_cons_of_lt hi]
    rw [Echfs.readLoop]
    dsimp only
    by_cases hlast : n = 0
    · subst hlast
      refine ⟨_, _, rfl, hu, hm, fun i hi => hfirst i (by omega), fun i hi => ?_⟩
      exact patch_of_lt hi
    · obtain ⟨hentry, hu', hm'⟩ := hu.getEntryForBlock (b := b) (by rwa [hm.shape.blocks])
      rw [hm.entry_eq] at hentry
      rw [if_neg hlast, hentry]
      cases hl with
      | last =>
        rw [length_singleton] at hn
        omega
      | cons hne hl =>
        have hcache := hm.trans hm'
        rw [if_neg hne]
        obtain ⟨buffer', fs', hloop, hu'', hm'', hrest, hkeep⟩ := ih hu'
          (by rw [hcache.entry_eq]; exact hl)
          (fun c hc => by rw [hcache.shape.blocks]; exact hlt c (mem_cons_of_mem b hc))
          (le_of_succ_le_succ hn) (pos + fs.blockSize)
          (buffer.patch pos fs.blockSize (fs.readBlock b).1)
        rw [hcache.shape.blockSize, hcache.chainBytes_eq] at hrest
        refine ⟨buffer', fs', hloop, hu'', hcache.trans hm'', fun i hi => ?_, fun i hi => ?_⟩
        · by_cases hfst : i < fs.blockSize
          · rw [hkeep _ (by omega), hfirst i hfst]
          · obtain ⟨j, rfl⟩ := Nat.exists_eq_add_of_le (Nat.le_of_not_lt hfst)
            rw [succ_mul] at hi
            rw [← Nat.add_assoc, hrest j (by omega), chainBytes_cons_add hpos]
        · rw [hkeep i (by omega)]
          exact patch_of_lt hi

/-- A chain that is too short. -/
theorem Usable.readLoop_none (h : fs.Usable) (hl : ChainFrom fs.entry echfsEndOfChain b l)
    (hlt : ∀ c ∈ l, c < fs.blocks) (hn : l.length < n) (pos : ℕ) (buffer : Bytes) :
    ∃ fs', Echfs.readLoop n b pos buffer fs = (none, fs') ∧ fs'.Usable ∧ CacheOf fs fs' := by
  induction n generalizing fs b l pos buffer with
  | zero => omega
  | succ n ih =>
    have hb := hlt b hl.head_mem
    obtain ⟨-, hu, hm⟩ := h.readBlock hb
    obtain ⟨hentry, hu', hm'⟩ := hu.getEntryForBlock (b := b) (by rwa [hm.shape.blocks])
    have hcache := hm.trans hm'
    have hlen := length_pos_iff.2 hl.ne_nil
    rw [hm.entry_eq] at hentry
    rw [Echfs.readLoop]
    dsimp only
    rw [if_neg (by omega), hentry]
    cases hl with
    | last hend =>
      rw [if_pos hend]
      exact ⟨_, rfl, hu', hcache⟩
    | @cons b l hne hl =>
      obtain ⟨fs', hloop, hu'', hm''⟩ := ih hu' (by rw [hcache.entry_eq]; exact hl)
        (fun c hc => by rw [hcache.shape.blocks]; exact hlt c (mem_cons_of_mem b hc))
        (lt_of_succ_lt_succ hn) (pos + fs.blockSize)
        (buffer.patch pos fs.blockSize (fs.readBlock b).1)
      rw [if_neg hne]
      exact ⟨fs', hloop, hu'', hcache.trans hm''⟩

/-! ### Buffers -/

/-- `kcalloc` returns a block of this size. -/
def HasBuffer (found : Bool) (size : ℕ) : Prop := found = true ∧ size + 0x2fff < 2 ^ 64

instance (found : Bool) (size : ℕ) : Decidable (HasBuffer found size) :=
  inferInstanceAs (Decidable (_ ∧ _))

theorem kcalloc_eq_ok {found : Bool} {size : ℕ} : kcalloc found size = .ok () ↔
    HasBuffer found size := by
  unfold kcalloc HasBuffer
  cases found <;> split_ifs <;> simp_all

theorem kcalloc_bind_wraps {α : Type} {size : ℕ} {f : Unit → Except VolumeHalt α}
    (h : 2 ^ 64 ≤ size + 0x2fff) : (kcalloc true size >>= f) = .error .fault := by
  rw [kcalloc, if_neg (by decide), if_neg (Nat.not_lt.2 h)]
  rfl

theorem kcalloc_bind_eq_ok {α : Type} {found : Bool} {size : ℕ} {a : α}
    {f : Unit → Except VolumeHalt α} :
    (kcalloc found size >>= f) = .ok a ↔ HasBuffer found size ∧ f () = .ok a := by
  simp only [bind_eq_ok, ← kcalloc_eq_ok]
  exact ⟨fun ⟨_, h⟩ => h, fun h => ⟨(), h⟩⟩

/-- The chain has the blocks that `read_blocks_for_range` asks for. -/
def Reaches (fs : Echfs) (l : List ℕ) (start count : ℕ) : Prop :=
  start / fs.blockSize < l.length ∧ start / fs.blockSize + fs.blocksToRead start count ≤ l.length

instance : Decidable (fs.Reaches l start count) := inferInstanceAs (Decidable (_ ∧ _))

theorem Usable.readBlocksForRange {found : Bool} (h : fs.Usable)
    (hl : ChainFrom fs.entry echfsEndOfChain file.startingBlock l)
    (hlt : ∀ c ∈ l, c < fs.blocks) (halloc : HasBuffer found (fs.blockBytes start count)) :
    ∃ fs', fs'.Usable ∧ CacheOf fs fs' ∧
    (fs.Reaches l start count → ∃ buffer, fs.readBlocksForRange found file start count =
      .ok (some buffer, fs') ∧ ∀ i < fs.blockBytes start count,
        buffer i = fs.chainBytes l (start / fs.blockSize * fs.blockSize + i)) ∧
    (¬ fs.Reaches l start count →
      fs.readBlocksForRange found file start count = .ok (none, fs')) := by
  have hpos := h.addressable.pos
  have hdiv : roundDown start fs.blockSize / fs.blockSize = start / fs.blockSize :=
    Nat.mul_div_cancel _ hpos
  obtain ⟨fs1, hskip, hu, hm⟩ := readsTable_usable.skipLoop (n := start / fs.blockSize) h hl hlt
  unfold Echfs.readBlocksForRange
  dsimp only
  rw [kcalloc_eq_ok.2 halloc, ok_bind, hdiv, hskip]
  by_cases hs : start / fs.blockSize < l.length
  · obtain ⟨t, ht⟩ : ∃ t, l[start / fs.blockSize]? = some t := ⟨_, List.getElem?_eq_getElem hs⟩
    have hdrop : ChainFrom fs1.entry echfsEndOfChain t (l.drop (start / fs.blockSize)) := by
      rw [hm.entry_eq]
      exact hl.drop ht
    have hltd : ∀ c ∈ l.drop (start / fs.blockSize), c < fs1.blocks := fun c hc => by
      rw [hm.shape.blocks]
      exact hlt c (mem_of_mem_drop hc)
    have hlen : (l.drop (start / fs.blockSize)).length = l.length - start / fs.blockSize :=
      length_drop
    rw [ht]
    by_cases hmany : start / fs.blockSize + fs.blocksToRead start count ≤ l.length
    · obtain ⟨buffer, fs', hloop, hu', hm', hbytes, -⟩ :=
        hu.readLoop hdrop hltd (n := fs.blocksToRead start count) (by omega) 0 fun _ => 0
      rw [hm.shape.blockSize, hm.chainBytes_eq] at hbytes
      refine ⟨fs', hu', hm.trans hm', fun _ => ⟨buffer, congrArg _ hloop, fun i hi => ?_⟩,
        fun hr => absurd ⟨hs, hmany⟩ hr⟩
      have hi' := hbytes i hi
      rw [Nat.zero_add] at hi'
      rw [hi', chainBytes_drop hpos]
    · obtain ⟨fs', hloop, hu', hm'⟩ :=
        hu.readLoop_none hdrop hltd (n := fs.blocksToRead start count) (by omega) 0 fun _ => 0
      exact ⟨fs', hu', hm.trans hm', fun hr => absurd hr.2 hmany, fun _ => congrArg _ hloop⟩
  · rw [List.getElem?_eq_none (Nat.le_of_not_lt hs)]
    exact ⟨fs1, hu, hm, fun hr => absurd hr.1 hs, fun _ => rfl⟩

/-- The range lies in the buffer. -/
def FitsBuffer (fs : Echfs) (start count : ℕ) : Prop :=
  start % fs.blockSize + count ≤ fs.blockBytes start count

/-- `read_for_range` copies the range out of the buffer if the chain has the blocks and there is
memory for the output. -/
theorem Usable.readForRange {heap : ℕ → Bool} (h : fs.Usable)
    (hl : ChainFrom fs.entry echfsEndOfChain file.startingBlock l)
    (hlt : ∀ c ∈ l, c < fs.blocks) (halloc : HasBuffer (heap 0) (fs.blockBytes start count)) :
    ∃ fs', fs'.Usable ∧ CacheOf fs fs' ∧ ∀ res,
    fs.readForRange heap file start count = .ok res ↔
      if fs.Reaches l start count then HasBuffer (heap 1) count ∧ fs.FitsBuffer start count ∧
        res = (some (toList (fun i => fs.chainBytes l (start + i)) count), fs')
      else res = (none, fs') := by
  obtain ⟨fs', hu, hm, hsome, hnone⟩ :=
    @Usable.readBlocksForRange fs start count l file _ h hl hlt halloc
  refine ⟨fs', hu, hm, fun res => ?_⟩
  unfold Echfs.readForRange
  split_ifs with hr
  · obtain ⟨buffer, hread, hbytes⟩ := hsome hr
    rw [hread, ok_bind]
    dsimp only
    rw [kcalloc_bind_eq_ok]
    refine and_congr_right fun _ => ?_
    split_ifs with hfits
    · have hout : toList (fun i => buffer (start % fs.blockSize + i)) count =
          toList (fun i => fs.chainBytes l (start + i)) count := by
        refine toList_congr fun i hi => ?_
        rw [hbytes _ (by omega), ← Nat.add_assoc, Nat.mul_comm, div_add_mod]
      rw [hout, Except.ok.injEq, eq_comm]
      exact (and_iff_right hfits).symm
    · exact iff_of_false (by simp) fun h => hfits h.1
  · rw [hnone hr, ok_bind, Except.ok.injEq, eq_comm]

/-! ### The number of blocks -/

/-- The number of blocks up to the end of the range. -/
def blocksUpTo (fs : Echfs) (start count : ℕ) : ℕ :=
  (start + count + fs.blockSize - 1) / fs.blockSize

theorem le_blocksUpTo_mul (hpos : 0 < fs.blockSize) :
    start + count ≤ fs.blocksUpTo start count * fs.blockSize := by
  have h := lt_div_mul_add (a := start + count + fs.blockSize - 1) hpos
  unfold blocksUpTo
  omega

theorem div_lt_blocksUpTo (hpos : 0 < fs.blockSize) (hcount : 1 ≤ count) :
    start / fs.blockSize < fs.blocksUpTo start count := by
  rw [lt_iff_add_one_le, ← add_div_right _ hpos]
  exact Nat.div_le_div_right (by omega)

/-- Without an overflow `blocks_to_read` is the number of blocks. -/
theorem blocksToRead_eq_sub (hpos : 0 < fs.blockSize)
    (hrange : start + count + fs.blockSize ≤ 2 ^ 64) :
    fs.blocksToRead start count = fs.blocksUpTo start count - start / fs.blockSize :=
  blocksToRead_eq hpos hrange

/-- When the end is rounded up to `2 ^ 64`, the number of blocks is right only if the range does not
start in the first block. -/
theorem blocksToRead_wrap (hlt : start + count < 2 ^ 64)
    (hwrap : 2 ^ 64 < start + count + fs.blockSize) (hsize : fs.blockSize ≤ 2 ^ 64) :
    fs.blocksToRead start count =
      if start < fs.blockSize then 0 else 2 ^ 64 / fs.blockSize - start / fs.blockSize := by
  have hpos : 0 < fs.blockSize := by omega
  have hup : roundUp ((start + count) % 2 ^ 64) fs.blockSize = 0 := by
    have hsum : ((start + count) % 2 ^ 64 + fs.blockSize + (2 ^ 64 - 1)) % 2 ^ 64 =
        start + count + fs.blockSize - 1 - 2 ^ 64 := by omega
    rw [roundUp, hsum, div_eq_of_lt (by omega), Nat.zero_mul, zero_mod]
  rw [blocksToRead, hup, Nat.zero_add, roundDown]
  split_ifs with hstart
  · rw [div_eq_of_lt hstart, Nat.zero_mul, Nat.sub_zero, mod_self, Nat.zero_div]
  · have hone : 1 ≤ start / fs.blockSize := (one_le_div_iff hpos).2 (by omega)
    have hge := Nat.mul_le_mul_right fs.blockSize hone
    rw [mod_eq_of_lt (by omega), Nat.mul_comm, sub_mul_div]

/-- The range does not wrap around, or does not start in the first block of a chain that is not the
whole address space. -/
def RangeOk (fs : Echfs) (l : List ℕ) (start count : ℕ) : Prop :=
  start + count + fs.blockSize ≤ 2 ^ 64 ∨ (fs.blockSize ≤ start ∧
    (l.length < 2 ^ 64 / fs.blockSize ∨ l.length ≤ start / fs.blockSize ∨
      fs.blocksUpTo start count ≤ l.length))

/-- The blocks are found and hold the range exactly if the chain is long enough. -/
theorem rangeOk_iff (hpos : 0 < fs.blockSize) (hl : 0 < l.length)
    (hlen : l.length * fs.blockSize ≤ 2 ^ 64) (hcount : 1 ≤ count)
    (hlt : start + count < 2 ^ 64) :
    (if l.length < fs.blocksUpTo start count then ¬ fs.Reaches l start count
      else fs.Reaches l start count ∧ fs.FitsBuffer start count) ↔ fs.RangeOk l start count := by
  have hs := @div_lt_blocksUpTo fs start count hpos hcount
  have hend := @le_blocksUpTo_mul fs start count hpos
  have hmod : start % fs.blockSize = start - start / fs.blockSize * fs.blockSize := by
    rw [Nat.mul_comm, mod_eq_sub]
  have hfloor := div_mul_le_self start fs.blockSize
  unfold RangeOk Reaches FitsBuffer blockBytes
  by_cases hrange : start + count + fs.blockSize ≤ 2 ^ 64
  · rw [blocksToRead_eq_sub hpos hrange, hmod, Nat.sub_mul]
    split_ifs with hshort
    · omega
    · have hmul := Nat.mul_le_mul_right fs.blockSize hs.le
      omega
  · have hsize : fs.blockSize ≤ 2 ^ 64 := le_trans (Nat.le_mul_of_pos_left _ hl) hlen
    have hlenQ : l.length ≤ 2 ^ 64 / fs.blockSize := (Nat.le_div_iff_mul_le hpos).2 hlen
    have hQ : 2 ^ 64 / fs.blockSize ≤ fs.blocksUpTo start count := Nat.div_le_div_right (by omega)
    rw [blocksToRead_wrap hlt (by omega) hsize]
    by_cases hfirst : start < fs.blockSize
    · -- no block is read, although the range is not empty
      rw [if_pos hfirst, div_eq_of_lt hfirst]
      split_ifs <;> omega
    · rw [if_neg hfirst, hmod, Nat.sub_mul]
      split_ifs with hshort
      · omega
      · -- the chain is the whole address space
        have heq : 2 ^ 64 / fs.blockSize = fs.blocksUpTo start count := by omega
        rw [heq]
        omega

/-! ### Reading -/

/-- `read_for_range` returns the bytes of the range, or null if the chain is too short. -/
def ReadsRange (fs : Echfs) (heap : ℕ → Bool) (file : DirEntry) (l : List ℕ) (start count : ℕ) :
    Prop :=
  ∃ fs', fs.readForRange heap file start count =
    .ok (if l.length < fs.blocksUpTo start count then none
      else some (toList (fun i => fs.chainBytes l (start + i)) count), fs')

/-- The blocks of a chain lie in the 64-bit address space. -/
theorem Addressable.length_mul_le (h : fs.Addressable)
    (hl : ChainFrom fs.entry echfsEndOfChain b l) (hlt : ∀ c ∈ l, c < fs.blocks) :
    l.length * fs.blockSize ≤ 2 ^ 64 := by
  exact le_trans (Nat.mul_le_mul_right _ (length_le_of_nodup hl.nodup hlt)) h.volume

/-- Nothing is returned without a buffer for the blocks. -/
theorem hasBuffer_of_readBlocksForRange {found : Bool} {res : Option Bytes × Echfs}
    (h : fs.readBlocksForRange found file start count = .ok res) :
    HasBuffer found (fs.blockBytes start count) :=
  (kcalloc_bind_eq_ok.1 h).1

/-- **`read_for_range`**, for every table and every finite chain: it returns the bytes of the range,
or null if the chain is too short, exactly if the end of the range does not wrap around or only so
that the number of blocks is right, and there is memory for the blocks and, if the chain is long
enough, for the output. -/
theorem Usable.readForRange_iff {heap : ℕ → Bool} (h : fs.Usable)
    (hl : ChainFrom fs.entry echfsEndOfChain file.startingBlock l)
    (hlt : ∀ c ∈ l, c < fs.blocks) (hcount : 1 ≤ count) (hwrap : start + count < 2 ^ 64) :
    fs.ReadsRange heap file l start count ↔
      fs.RangeOk l start count ∧ HasBuffer (heap 0) (fs.blockBytes start count) ∧
        (fs.blocksUpTo start count ≤ l.length → HasBuffer (heap 1) count) := by
  rw [← rangeOk_iff h.addressable.pos (length_pos_iff.2 hl.ne_nil)
    (h.addressable.length_mul_le hl hlt) hcount hwrap]
  by_cases halloc : HasBuffer (heap 0) (fs.blockBytes start count)
  swap
  · refine iff_of_false ?_ fun hc => halloc hc.2.1
    rintro ⟨fs', hread⟩
    obtain ⟨_, hblocks, -⟩ := bind_eq_ok.1 hread
    exact halloc (hasBuffer_of_readBlocksForRange hblocks)
  obtain ⟨fs1, -, -, hres⟩ := @Usable.readForRange fs start count l file heap h hl hlt halloc
  unfold ReadsRange
  simp only [hres, halloc, true_and]
  by_cases hr : fs.Reaches l start count
  · simp only [if_pos hr]
    split_ifs with hshort
    · exact iff_of_false (by simp) fun hc => hc.1 hr
    · rw [imp_iff_right (Nat.not_lt.1 hshort)]
      exact ⟨fun ⟨_, h1, h2, _⟩ => ⟨⟨hr, h2⟩, h1⟩, fun ⟨h2, h1⟩ => ⟨fs1, h1, h2.2, rfl⟩⟩
  · simp only [if_neg hr]
    split_ifs with hshort
    · exact iff_of_true ⟨fs1, rfl⟩ ⟨hr, fun hlong => absurd hlong (Nat.not_le.2 hshort)⟩
    · exact iff_of_false (by simp) fun hc => hr hc.1.1

/-- The second block of a file and the end of the first one are read. -/
theorem readForRange_twoBlocks :
    twoBlocks.ReadsRange (fun _ => true) fileAt21 [21, 22] 250 100 := by
  refine (usable_twoBlocks.readForRange_iff fileChain_twoBlocks.chain fileChain_twoBlocks.lt
    (by decide) (by decide)).2 ⟨Or.inl ?_, by decide, fun _ => by decide⟩
  decide

/-- No block is read if the end of the range wraps around. -/
theorem readBlocksForRange_twoBlocks :
    (∃ buffer, twoBlocks.readBlocksForRange true fileAt21 0 (2 ^ 64 - 1) =
      .ok (some buffer, twoBlocks)) ∧ twoBlocks.blockBytes 0 (2 ^ 64 - 1) = 0 := by
  have hblocks : twoBlocks.blocksToRead 0 (2 ^ 64 - 1) = 0 := by decide
  unfold readBlocksForRange blockBytes
  dsimp only
  rw [hblocks, kcalloc_eq_ok.2 (by decide), ok_bind]
  exact ⟨⟨_, rfl⟩, Nat.zero_mul _⟩

/-- **Almost the whole address space is requested from a file of two blocks**: the number of blocks
is zero, and the size of the output wraps around, so that it is cleared past the end of its block;
or the size of the blocks does.  A call that finds the chain too short does not return null. -/
theorem readForRange_overruns : twoBlocks.Usable ∧
    twoBlocks.FileChain fileAt21.startingBlock [21, 22] ∧
    twoBlocks.readForRange (fun _ => true) fileAt21 0 (2 ^ 64 - 1) = .error .fault ∧
    ¬ twoBlocks.ReadsRange (fun _ => true) fileAt21 [21, 22] 0 (2 ^ 64 - 1) ∧
    twoBlocks.readForRange (fun _ => true) fileAt21 256 (2 ^ 64 - 257) = .error .fault ∧
    ¬ twoBlocks.ReadsRange (fun _ => true) fileAt21 [21, 22] 256 (2 ^ 64 - 257) := by
  have hcall : twoBlocks.readForRange (fun _ => true) fileAt21 0 (2 ^ 64 - 1) = .error .fault := by
    obtain ⟨⟨buffer, hres⟩, -⟩ := readBlocksForRange_twoBlocks
    rw [readForRange, hres, ok_bind]
    exact kcalloc_bind_wraps (by decide)
  have hcall' : twoBlocks.readForRange (fun _ => true) fileAt21 256 (2 ^ 64 - 257) =
      .error .fault := by
    have hfails : twoBlocks.readBlocksForRange true fileAt21 256 (2 ^ 64 - 257) = .error .fault :=
      kcalloc_bind_wraps (by decide)
    rw [readForRange, hfails]
    rfl
  refine ⟨usable_twoBlocks, fileChain_twoBlocks, hcall, ?_, hcall', ?_⟩
  · rintro ⟨fs', hread⟩
    cases hcall.symm.trans hread
  · rintro ⟨fs', hread⟩
    cases hcall'.symm.trans hread

/-! ### Writing -/

theorem Mounted.usable (h : fs.Mounted) : fs.Usable := ⟨h.coherent, h.addressable⟩

theorem CacheOf.mounted (hm : CacheOf fs fs') (h : fs.Mounted) (hu : fs'.Usable) : fs'.Mounted :=
  hm.shape.mounted h hu.coherent

theorem writesData_mounted : WritesData Mounted where
  reads := fun _ _ h hb => by
    obtain ⟨hentry, hu, hm⟩ := h.usable.getEntryForBlock hb
    exact ⟨hentry, hm.mounted h hu, hm⟩
  addressable := fun _ h => h.addressable
  writes := fun fs b data h hb => by
    obtain ⟨htable, hdir⟩ := h.tables_writeData hb data
    obtain ⟨hcoh, -⟩ := writeBlock_spec h.coherent h.addressable.pos (h.addressable.block hb.2) data
    have hshape : SameShape fs { fs.writeBlock b data with fileWrites := b :: fs.fileWrites } :=
      ⟨rfl, rfl, rfl, rfl⟩
    exact ⟨hshape.mounted h ⟨hcoh.plain, hcoh.agree⟩, ⟨hshape, hdir⟩, htable⟩

theorem WroteRange.of_cacheOf {fs1 : Echfs} {lo hi : ℕ} (hw : WroteRange fs1 fs' l lo hi data)
    (hm : CacheOf fs fs1) :
    WroteRange fs fs' l lo hi data := by
  obtain ⟨htables, hwritten, hother⟩ := hw
  rw [hm.shape.blockSize, hm.disk_eq] at hwritten hother
  exact ⟨hm.sameTables.trans htables, hwritten, hother⟩

/-- The file was changed in a range and in nothing else, and reading it gives the data. -/
structure WroteFile (fs fs' : Echfs) (heap : ℕ → Bool) (file : DirEntry) (l : List ℕ)
    (start count : ℕ) (data : Bytes) : Prop where
  chain : ChainFrom fs'.entry echfsEndOfChain file.startingBlock l
  splice : (fs'.chainBytes l).toList (l.length * fs.blockSize) =
    ((fs.chainBytes l).patch start count data).toList (l.length * fs.blockSize)
  other : ∀ d ∉ l, ∀ i < fs.blockSize,
    fs'.disk (d * fs.blockSize + i) = fs.disk (d * fs.blockSize + i)
  read : ∃ fs'', fs'.readForRange heap file start count = .ok (some (data.toList count), fs'')

/-- `write_for_range` changes the range, or nothing if the chain is too short.  The calls of
`kcalloc` after the first one are those of `read_for_range`. -/
def WritesRange (fs : Echfs) (heap : ℕ → Bool) (file : DirEntry) (l : List ℕ) (start count : ℕ)
    (data : Bytes) : Prop :=
  if fs.blocksUpTo start count ≤ l.length then
    ∃ fs', fs.writeForRange (heap 0) file start count data = .ok (0, fs') ∧
      WroteFile fs fs' (fun i => heap (i + 1)) file l start count data
  else ∃ fs', fs.writeForRange (heap 0) file start count data = .ok (1, fs') ∧ fs'.disk = fs.disk

/-- The blocks of the range, with the data in them, are written back. -/
theorem WroteRange.splice {buffer : Bytes} {m : ℕ} (hpos : 0 < fs.blockSize)
    (hm : m = fs.blocksUpTo start count - start / fs.blockSize)
    (hbuffer : ∀ i < m * fs.blockSize,
      buffer i = fs.chainBytes l (start / fs.blockSize * fs.blockSize + i))
    (hw : WroteRange fs fs' l (start / fs.blockSize) (fs.blocksUpTo start count)
      (buffer.patch (start % fs.blockSize) count data)) (hp : p < l.length * fs.blockSize) :
    fs'.chainBytes l p = (fs.chainBytes l).patch start count data p := by
  have hend := @le_blocksUpTo_mul fs start count hpos
  have hstart := div_add_mod start fs.blockSize
  have hp' := div_add_mod p fs.blockSize
  have hmod := mod_lt p hpos
  rw [Nat.mul_comm] at hstart hp'
  rw [hw.chainBytes hpos hp]
  unfold patch
  by_cases hin : start / fs.blockSize ≤ p / fs.blockSize ∧
      p / fs.blockSize < fs.blocksUpTo start count
  · have hle := Nat.mul_le_mul_right fs.blockSize hin.1
    rw [if_pos hin]
    by_cases hdata : start ≤ p ∧ p < start + count
    · rw [if_pos hdata, if_pos (by omega)]
      congr 1
      omega
    · rw [if_neg hdata, if_neg (by omega)]
      -- the byte is read before it is written
      have hlast := Nat.mul_le_mul_right fs.blockSize (succ_le_of_lt hin.2)
      rw [succ_mul] at hlast
      rw [hbuffer _ (by rw [hm, Nat.sub_mul]; omega), Nat.add_sub_cancel' (by omega)]
  · rw [if_neg hin, if_neg fun hdata => ?_]
    -- a byte of the range lies in one of its blocks
    refine hin ⟨Nat.div_le_div_right hdata.1, ?_⟩
    exact (Nat.div_lt_iff_lt_mul hpos).2 (by omega)

/-- A range that does not wrap around. -/
theorem Mounted.writeForRange_of_le {heap : ℕ → Bool} (h : fs.Mounted)
    (hl : ChainFrom fs.entry echfsEndOfChain file.startingBlock l) (hdata : ∀ c ∈ l, fs.IsData c)
    (hcount : 1 ≤ count) (hrange : start + count + fs.blockSize ≤ 2 ^ 64)
    (hlong : fs.blocksUpTo start count ≤ l.length)
    (halloc : HasBuffer (heap 0) (fs.blockBytes start count)) :
    ∃ fs', fs.writeForRange (heap 0) file start count data = .ok (0, fs') ∧
      (WroteFile fs fs' (fun i => heap (i + 1)) file l start count data ↔
        HasBuffer (heap 1) (fs.blockBytes start count) ∧ HasBuffer (heap 2) count) := by
  have hpos := h.addressable.pos
  have hlt : ∀ c ∈ l, c < fs.blocks := fun c hc => (hdata c hc).2
  have hlenpos := length_pos_iff.2 hl.ne_nil
  have hlen := h.addressable.length_mul_le hl hlt
  have hok := (rangeOk_iff hpos hlenpos hlen hcount (by omega)).2 (Or.inl hrange)
  rw [if_neg (Nat.not_lt.2 hlong)] at hok
  obtain ⟨hr, hfits⟩ := hok
  obtain ⟨fs1, hu, hm, hsome, -⟩ :=
    @Usable.readBlocksForRange fs start count l file _ h.usable hl hlt halloc
  obtain ⟨buffer, hread, hbuffer⟩ := hsome hr
  have hsize := hm.shape.blockSize
  obtain ⟨fs', hwrite, hmounted, hw⟩ : ∃ fs', fs1.writeBlocksForRange file start count
      (buffer.patch (start % fs.blockSize) count data) = (0, fs') ∧ _ :=
    writesData_mounted.writeBlocksForRange (hm.mounted h hu) (by rw [hm.entry_eq]; exact hl)
      (fun c hc => hm.shape.isData.2 (hdata c hc)) (Nat.ne_of_gt hcount) (by rwa [hsize])
      (by rw [hsize]; exact hlong)
  rw [hsize] at hw
  have hw : WroteRange fs fs' l (start / fs.blockSize) (fs.blocksUpTo start count)
      (buffer.patch (start % fs.blockSize) count data) := hw.of_cacheOf hm
  have hbytes := fun p => hw.splice (p := p) hpos (blocksToRead_eq_sub hpos hrange) hbuffer
  have hl' : ChainFrom fs'.entry echfsEndOfChain file.startingBlock l :=
    hl.congr fun c hc => hw.entry c (hlt c hc)
  have hlt' : ∀ c ∈ l, c < fs'.blocks := fun c hc => by
    rw [hw.shape.blocks]
    exact hlt c hc
  refine ⟨fs', ?_, ?_⟩
  · unfold Echfs.writeForRange
    rw [hread, ok_bind]
    dsimp only
    rw [if_pos (show start % fs.blockSize + count ≤ fs.blockBytes start count from hfits), hwrite]
    rfl
  have hsame : fs'.blocksToRead start count = fs.blocksToRead start count := by
    unfold blocksToRead
    rw [hw.shape.blockSize]
  have hsame' : fs'.blockBytes start count = fs.blockBytes start count := by
    unfold blockBytes
    rw [hsame, hw.shape.blockSize]
  have hr' : fs'.Reaches l start count := by
    unfold Reaches
    rw [hsame, hw.shape.blockSize]
    exact hr
  have hfits' : fs'.FitsBuffer start count := by
    unfold FitsBuffer
    rw [hsame', hw.shape.blockSize]
    exact hfits
  constructor
  · rintro ⟨-, -, -, fs'', hback⟩
    obtain ⟨_, hblocks, -⟩ := bind_eq_ok.1 hback
    have halloc' := hasBuffer_of_readBlocksForRange hblocks
    obtain ⟨fs2, -, -, hres⟩ :=
      @Usable.readForRange fs' start count l file (fun i => heap (i + 1)) hmounted.usable hl' hlt'
        halloc'
    rw [hres, if_pos hr'] at hback
    exact ⟨hsame' ▸ halloc', hback.1⟩
  · rintro ⟨halloc1, halloc2⟩
    obtain ⟨fs2, -, -, hres⟩ := @Usable.readForRange fs' start count l file (fun i => heap (i + 1))
      hmounted.usable hl' hlt' (by rwa [hsame'])
    refine ⟨hl', toList_congr hbytes, hw.other, fs2, ?_⟩
    rw [hres, if_pos hr']
    refine ⟨halloc2, hfits', ?_⟩
    have hreach : start + count ≤ l.length * fs.blockSize :=
      le_trans (le_blocksUpTo_mul hpos) (Nat.mul_le_mul_right _ hlong)
    have hdata' : data.toList count = toList (fun i => fs'.chainBytes l (start + i)) count := by
      refine toList_congr fun i hi => ?_
      rw [hbytes _ (by omega), patch_add hi]
    rw [hdata']

/-- The data blocks are not the whole address space. -/
theorem Mounted.length_lt (h : fs.Mounted) (hl : ChainFrom fs.entry echfsEndOfChain b l)
    (hdata : ∀ c ∈ l, fs.IsData c) : l.length < 2 ^ 64 / fs.blockSize := by
  have hzero : 0 ∉ l := fun h0 => by
    have h16 := h.le_mainDirBlock
    have hle := (hdata 0 h0).1
    unfold dataStart at hle
    omega
  have hlt : ∀ c ∈ 0 :: l, c < fs.blocks := by
    rintro c (_ | ⟨_, hc⟩)
    · exact zero_lt_of_lt (hdata b hl.head_mem).2
    · exact (hdata c hc).2
  have hblocks : fs.blocks ≤ 2 ^ 64 / fs.blockSize :=
    (Nat.le_div_iff_mul_le h.addressable.pos).2 h.addressable.volume
  exact Nat.lt_of_lt_of_le (length_le_of_nodup (nodup_cons.2 ⟨hzero, hl.nodup⟩) hlt) hblocks

/-- **`write_for_range`**, for every finite chain of data blocks: it changes the range and nothing
else, or nothing if the chain is too short, exactly if the end of the range does not wrap around or
the range does not start in the first block, and there is memory for the buffers, also of the
`read_for_range` that follows if the chain is long enough. -/
theorem Mounted.writeForRange_iff {data : Bytes} {heap : ℕ → Bool} (h : fs.Mounted)
    (hl : ChainFrom fs.entry echfsEndOfChain file.startingBlock l)
    (hdata : ∀ c ∈ l, fs.IsData c) (hcount : 1 ≤ count) (hwrap : start + count < 2 ^ 64) :
    fs.WritesRange heap file l start count data ↔
      (start + count + fs.blockSize ≤ 2 ^ 64 ∨ fs.blockSize ≤ start) ∧
        HasBuffer (heap 0) (fs.blockBytes start count) ∧ (fs.blocksUpTo start count ≤ l.length →
          HasBuffer (heap 1) (fs.blockBytes start count) ∧ HasBuffer (heap 2) count) := by
  have hlt : ∀ c ∈ l, c < fs.blocks := fun c hc => (hdata c hc).2
  have hok := rangeOk_iff h.addressable.pos (length_pos_iff.2 hl.ne_nil)
    (h.addressable.length_mul_le hl hlt) hcount hwrap
  have hcond : fs.RangeOk l start count ↔
      start + count + fs.blockSize ≤ 2 ^ 64 ∨ fs.blockSize ≤ start := by
    unfold RangeOk
    simp only [h.length_lt hl hdata, true_or, and_true]
  rw [← hcond, ← hok]
  unfold WritesRange
  by_cases halloc : HasBuffer (heap 0) (fs.blockBytes start count)
  swap
  · have hfails {r : ℕ} :
        ¬ ∃ fs', fs.writeForRange (heap 0) file start count data = .ok (r, fs') := by
      rintro ⟨fs', hwrite⟩
      obtain ⟨_, hblocks, -⟩ := bind_eq_ok.1 hwrite
      exact halloc (hasBuffer_of_readBlocksForRange hblocks)
    refine iff_of_false ?_ fun hc => halloc hc.2.1
    split_ifs
    · exact fun hw => hfails (hw.imp fun _ => And.left)
    · exact fun hw => hfails (hw.imp fun _ => And.left)
  obtain ⟨fs1, hu, hm, hsome, hnone⟩ :=
    @Usable.readBlocksForRange fs start count l file _ h.usable hl hlt halloc
  simp only [halloc, true_and]
  by_cases hlong : fs.blocksUpTo start count ≤ l.length
  · rw [if_pos hlong, if_neg (Nat.not_lt.2 hlong), imp_iff_right hlong]
    by_cases hrange : start + count + fs.blockSize ≤ 2 ^ 64
    · rw [if_neg (Nat.not_lt.2 hlong)] at hok
      obtain ⟨fs', hwrite, hiff⟩ := @Mounted.writeForRange_of_le fs start count l file data heap h
        hl hdata hcount hrange hlong halloc
      rw [and_iff_right (hok.2 (Or.inl hrange)), ← hiff]
      refine ⟨fun ⟨fs2, hwrite2, hw⟩ => ?_, fun hw => ⟨fs', hwrite, hw⟩⟩
      cases hwrite.symm.trans hwrite2
      exact hw
    · -- then the chain would have to be the whole address space
      have hQ : 2 ^ 64 / fs.blockSize ≤ fs.blocksUpTo start count := Nat.div_le_div_right (by omega)
      have := h.length_lt hl hdata
      omega
  · rw [if_neg hlong, if_pos (Nat.not_le.1 hlong), and_iff_left fun hl => absurd hl hlong]
    by_cases hr : fs.Reaches l start count
    · refine iff_of_false ?_ (not_not.2 hr)
      -- no block is read, and the data goes past the end of an empty buffer
      rw [hcond, if_pos (Nat.not_le.1 hlong)] at hok
      have hbad : ¬ (start + count + fs.blockSize ≤ 2 ^ 64 ∨ fs.blockSize ≤ start) :=
        fun hc => hok.2 hc hr
      have hsize : fs.blockSize ≤ 2 ^ 64 :=
        le_trans (Nat.le_mul_of_pos_left _ (length_pos_iff.2 hl.ne_nil))
          (h.addressable.length_mul_le hl hlt)
      have hzero := blocksToRead_wrap hwrap (by omega) hsize
      rw [if_pos (by omega)] at hzero
      rintro ⟨fs', hwrite, -⟩
      obtain ⟨buffer, hread, -⟩ := hsome hr
      unfold Echfs.writeForRange at hwrite
      rw [hread, ok_bind] at hwrite
      dsimp only at hwrite
      rw [blockBytes, hzero, if_neg (by omega)] at hwrite
      cases hwrite
    · refine iff_of_true ⟨fs1, ?_, hm.disk_eq⟩ hr
      unfold Echfs.writeForRange
      rw [hnone hr]
      rfl

theorem isData_twoBlocks : ∀ c ∈ [21, 22], twoBlocks.IsData c := by decide

/-- Data is written across the border of the two blocks of a file. -/
theorem writeForRange_twoBlocks :
    twoBlocks.WritesRange (fun _ => true) fileAt21 [21, 22] 250 100 fun i => UInt8.ofNat i := by
  refine ((mounted_smallVolume _).writeForRange_iff fileChain_twoBlocks.chain isData_twoBlocks
    (by decide) (by decide)).2 ⟨Or.inl ?_, by decide, fun _ => by decide⟩
  decide

/-- **Data of almost the whole address space** is copied to an empty buffer instead of a failure. -/
theorem writeForRange_overruns : twoBlocks.Mounted ∧
    twoBlocks.FileChain fileAt21.startingBlock [21, 22] ∧
    twoBlocks.writeForRange true fileAt21 0 (2 ^ 64 - 1) (fun _ => 0) = .error .fault ∧
    ¬ twoBlocks.WritesRange (fun _ => true) fileAt21 [21, 22] 0 (2 ^ 64 - 1) fun _ => 0 := by
  have hl := fileChain_twoBlocks
  have hcall : twoBlocks.writeForRange true fileAt21 0 (2 ^ 64 - 1) (fun _ => 0) =
      .error .fault := by
    obtain ⟨⟨buffer, hres⟩, hzero⟩ := readBlocksForRange_twoBlocks
    rw [writeForRange, hres, ok_bind]
    dsimp only
    rw [hzero, if_neg (by omega)]
  refine ⟨mounted_smallVolume _, hl, hcall, fun hw => ?_⟩
  unfold WritesRange at hw
  rw [hcall, if_neg (by decide)] at hw
  obtain ⟨fs', hwrite, -⟩ := hw
  cases hwrite

end Echfs

end DripOS
