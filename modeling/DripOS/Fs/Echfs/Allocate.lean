import DripOS.Fs.Echfs.Chains

/-!
# Growing a chain

`allocate_blocks_for_file` on any volume with a coherent cache (`Echfs.Usable`), for a finite chain.
A round of its second loop links the first free block behind the last one; without a free block it
takes block `0`.  A round is `Echfs.linkEntry` with a block that satisfies `Echfs.Pick`, and
`Echfs.Usable.extendLoop` is the induction rule.

* `Echfs.Growing` : the invariant while there are free blocks and block `0` is in use;
* `Echfs.Usable.restored_iff` : what a chain that is longer than requested comes to.  The number of
  blocks to add wraps around: the loop takes all the free blocks in almost `2 ^ 64` rounds and then
  links two blocks to each other in turn;
* `Echfs.Usable.allocateBlocksForFile_iff` : **when the chain is as long as requested afterwards.**
-/

namespace DripOS

open List Function Nat

namespace Echfs

variable {fs fs' : Echfs} {b c t f k m n : ℕ} {e e0 : ℕ → ℕ} {l : List ℕ}

/-- The block cache is coherent and the positions are 64-bit numbers. -/
structure Usable (fs : Echfs) : Prop where
  coherent : fs.Coherent
  addressable : fs.Addressable

theorem Usable.getEntryForBlock (h : fs.Usable) (hb : b < fs.blocks) :
    (fs.getEntryForBlock b).1 = fs.entry b ∧ (fs.getEntryForBlock b).2.Usable ∧
      CacheOf fs (fs.getEntryForBlock b).2 := by
  obtain ⟨hentry, hcoh, hm⟩ := getEntryForBlock_spec h.coherent h.addressable hb
  have hm : CacheOf fs (fs.getEntryForBlock b).2 := hm
  exact ⟨hentry, ⟨hcoh, h.addressable.of_eq hm.shape.blocks hm.shape.blockSize⟩, hm⟩

theorem readsTable_usable : ReadsTable Usable := fun _ _ h hb => h.getEntryForBlock hb

theorem Addressable.blocks_lt (h : fs.Addressable) : fs.blocks < 2 ^ 62 := by
  have hvol := h.volume
  have hsize : 8 ≤ fs.blockSize := le_of_dvd h.pos h.dvd
  have := Nat.mul_le_mul_left fs.blocks hsize
  omega

/-! ### The chain of a file -/

/-- The chain of a file: used blocks of the volume, each with the next one as its entry. -/
structure FileChain (fs : Echfs) (b : ℕ) (l : List ℕ) : Prop where
  chain : ChainFrom fs.entry echfsEndOfChain b l
  lt : ∀ c ∈ l, c < fs.blocks
  used : ∀ c ∈ l, fs.entry c ≠ 0

theorem length_le_of_nodup (h : l.Nodup) (hlt : ∀ c ∈ l, c < n) : l.length ≤ n := by
  simpa using (subperm_of_subset h fun c hc => mem_range.2 (hlt c hc)).length_le

/-- A chain has at most as many blocks as the volume. -/
theorem FileChain.length_le (h : fs.FileChain b l) : l.length ≤ fs.blocks :=
  length_le_of_nodup h.chain.nodup h.lt

/-- The last entry of a chain is the mark. -/
theorem next_getLast {next : ℕ → ℕ} {stop : ℕ} (h : ChainFrom next stop b l)
    (ht : l.getLast? = some t) : next t = stop := by
  induction h with
  | last hb =>
    rw [List.getLast?_singleton, Option.some.injEq] at ht
    exact ht ▸ hb
  | cons _ hl ih =>
    rw [List.getLast?_cons_of_ne_nil hl.ne_nil] at ht
    exact ih ht

/-- No entry of a chain leads to block `0`. -/
theorem FileChain.zero_notMem (h : fs.FileChain b (c :: l)) : 0 ∉ l := by
  obtain ⟨hchain, -, hused⟩ := h
  generalize hl : c :: l = l' at hchain hused
  induction hchain generalizing c l with
  | last =>
    obtain ⟨-, rfl⟩ := List.cons.inj hl
    exact not_mem_nil
  | @cons b l' hne htail ih =>
    obtain ⟨-, rfl⟩ := List.cons.inj hl
    intro h0
    have hb := hused b mem_cons_self
    cases htail with
    | last => exact hb (mem_singleton.1 h0).symm
    | cons hne' htail' =>
      rcases mem_cons.1 h0 with h0 | h0
      · exact hb h0.symm
      · exact ih rfl (fun d hd => hused d (mem_cons_of_mem _ hd)) h0

theorem FileChain.zero_notMem_added {added : List ℕ} (h : fs.FileChain b (l ++ added))
    (hl : l ≠ []) : 0 ∉ added := by
  obtain ⟨c, l, rfl⟩ := exists_cons_of_ne_nil hl
  exact fun h0 => h.zero_notMem (mem_append_right _ h0)

/-- A chain that ends in block `0` has one block. -/
theorem FileChain.length_of_getLast_zero (h : fs.FileChain b l) (h0 : l.getLast? = some 0) :
    l.length = 1 := by
  obtain ⟨c, l, rfl⟩ := exists_cons_of_ne_nil h.chain.ne_nil
  rcases l.eq_nil_or_concat with rfl | ⟨l', d, rfl⟩
  · rfl
  · rw [concat_eq_append] at h h0
    rw [← cons_append, List.getLast?_concat, Option.some.injEq] at h0
    exact absurd (mem_append_right _ (mem_singleton.2 h0.symm)) h.zero_notMem

/-! ### One round on the table -/

/-- The cells of a table that are free. -/
def freeCells (n : ℕ) (e : ℕ → ℕ) : Finset ℕ := {b ∈ Finset.range n | e b = 0}

theorem mem_freeCells : b ∈ freeCells n e ↔ b < n ∧ e b = 0 := by
  rw [freeCells, Finset.mem_filter, Finset.mem_range]

theorem freeBlocks_eq : fs.freeBlocks = freeCells fs.blocks fs.entry := rfl

/-- What `find_free_block` may return on a table of `n` entries. -/
structure Pick (n : ℕ) (e : ℕ → ℕ) (f : ℕ) : Prop where
  free : (∃ b < n, e b = 0) → f < n ∧ e f = 0
  none : (∀ b < n, e b ≠ 0) → f = 0
  zero : e 0 = 0 → f = 0

theorem Pick.lt (h : Pick n e f) (hn : 0 < n) : f < n := by
  by_cases hfree : ∃ b < n, e b = 0
  · exact (h.free hfree).1
  · rw [h.none fun b hb h0 => hfree ⟨b, hb, h0⟩]
    exact hn

/-- The table after a round: `f` is linked behind `t` and ends the chain. -/
def linkEntry (e : ℕ → ℕ) (t f : ℕ) : ℕ → ℕ := fun d =>
  if d = f then echfsEndOfChain else if d = t then f else e d

@[simp] theorem linkEntry_self : linkEntry e t f f = echfsEndOfChain := if_pos rfl

theorem linkEntry_tail (h : t ≠ f) : linkEntry e t f t = f := by
  rw [linkEntry, if_neg h, if_pos rfl]

theorem linkEntry_of_ne (hf : c ≠ f) (ht : c ≠ t) : linkEntry e t f c = e c := by
  rw [linkEntry, if_neg hf, if_neg ht]

theorem endOfChain_ne_zero : echfsEndOfChain ≠ 0 := by decide

/-- Block `0` stays in use, or it is the one that is taken. -/
theorem linkEntry_zero (h : f ≠ 0 → e 0 ≠ 0) : linkEntry e t f 0 ≠ 0 := by
  unfold linkEntry
  split_ifs with hf
  · exact endOfChain_ne_zero
  · exact Ne.symm hf
  · exact h (Ne.symm hf)

theorem findFreeLoop_none {fuel i : ℕ} (h : fs.Usable) (hi : i + fuel = fs.blocks)
    (hnone : ∀ b < fs.blocks, fs.entry b ≠ 0) : (findFreeLoop fuel i fs).1 = 0 := by
  induction fuel generalizing i fs with
  | zero => rfl
  | succ fuel ih =>
    obtain ⟨hentry, hu, hm⟩ := h.getEntryForBlock (b := i) (by omega)
    rw [findFreeLoop, if_neg (hentry ▸ hnone i (by omega))]
    refine ih hu (by rw [hm.shape.blocks]; omega) ?_
    rw [hm.shape.blocks, hm.entry_eq]
    exact hnone

theorem Usable.findFreeBlock (h : fs.Usable) : fs.findFreeBlock.2.Usable ∧
    CacheOf fs fs.findFreeBlock.2 ∧ Pick fs.blocks fs.entry fs.findFreeBlock.1 := by
  obtain ⟨hcoh, hm, hfound⟩ := findFreeLoop_spec h.coherent h.addressable (Nat.zero_add fs.blocks)
  have hm : CacheOf fs fs.findFreeBlock.2 := hm
  refine ⟨⟨hcoh, h.addressable.of_eq hm.shape.blocks hm.shape.blockSize⟩, hm, ?_, ?_, ?_⟩
  · rintro ⟨b, hb, h0⟩
    rcases hfound with hnone | ⟨-, hlt, hzero⟩
    · exact absurd h0 (hnone b (Nat.zero_le b) hb)
    · exact ⟨hlt, hzero⟩
  · exact findFreeLoop_none h (Nat.zero_add _)
  · intro h0
    rw [Echfs.findFreeBlock]
    cases hb : fs.blocks with
    | zero => rfl
    | succ fuel =>
      have hentry := (h.getEntryForBlock (b := 0) (by omega)).1
      rw [findFreeLoop, hentry, if_pos h0]

theorem Usable.linkFree (h : fs.Usable) (ht : t < fs.blocks) :
    (fs.linkFree t).Usable ∧ (fs.linkFree t).blocks = fs.blocks ∧
    Pick fs.blocks fs.entry fs.findFreeBlock.1 ∧
    (fs.linkFree t).entry = linkEntry fs.entry t fs.findFreeBlock.1 := by
  obtain ⟨⟨hcoh, haddr⟩, hm, hpick⟩ := h.findFreeBlock
  have hf := hpick.lt (zero_lt_of_lt ht)
  have hlt := h.addressable.blocks_lt
  rw [← hm.shape.blocks] at ht hf
  unfold Echfs.linkFree
  generalize fs.findFreeBlock.1 = f at *
  obtain ⟨hcoh1, m1, h1⟩ := setEntryForBlock_spec hcoh haddr ht f
  have haddr1 : (fs.findFreeBlock.2.setEntryForBlock t f).Addressable :=
    haddr.of_eq (by rw [h1]) (by rw [h1])
  obtain ⟨hcoh2, m2, h2⟩ := setEntryForBlock_spec (b := f) hcoh1 haddr1 (by rw [h1]; exact hf)
    echfsEndOfChain
  refine ⟨⟨hcoh2, haddr1.of_eq (by rw [h2]) (by rw [h2])⟩, ?_, hpick, ?_⟩
  · rw [h2, h1]
    exact hm.shape.blocks
  · funext d
    have hf64 : f % 2 ^ 64 = f := mod_eq_of_lt (by rw [hm.shape.blocks] at hf; omega)
    rw [h2, entry_setEntry, h1, entry_setEntry, hf64, hm.entry_eq]
    rfl

/-- **The rule for the rounds**: what every round keeps holds at the end. -/
theorem Usable.extendLoop {I : ℕ → (ℕ → ℕ) → ℕ → Prop} (h : fs.Usable) (ht : t < fs.blocks)
    (hinit : I 0 fs.entry t) (hstep : ∀ k < m, ∀ e t f, t < fs.blocks → I k e t →
      Pick fs.blocks e f → I (k + 1) (linkEntry e t f) f) :
    (Echfs.extendLoop m t fs).blocks = fs.blocks ∧
      ∃ t', I m (Echfs.extendLoop m t fs).entry t' := by
  induction m generalizing fs t I with
  | zero => exact ⟨rfl, t, hinit⟩
  | succ m ih =>
    obtain ⟨hu, hblocks, hpick, hentry⟩ := h.linkFree ht
    have hnext := hstep 0 (succ_pos m) fs.entry t _ ht hinit hpick
    have hf := hpick.lt (zero_lt_of_lt ht)
    rw [← hentry] at hnext
    obtain ⟨hb, t', hI⟩ := ih (I := fun k => I (k + 1)) hu (hblocks ▸ hf) hnext
      fun k hk e t f ht hI hp => by
        rw [hblocks] at ht hp
        exact hstep (k + 1) (by omega) e t f ht hI hp
    exact ⟨hb.trans hblocks, t', hI⟩

/-! ### Growing -/

/-- The chain `l` from `b` on got the blocks `added` behind it, which makes it as long as requested.
-/
structure GrownBy (fs fs' : Echfs) (b : ℕ) (l added : List ℕ) (n : ℕ) : Prop where
  chain : fs'.FileChain b (l ++ added)
  nodup : (l ++ added).Nodup
  length : (l ++ added).length = max l.length n
  free : ∀ c ∈ added, c < fs.blocks ∧ fs.entry c = 0
  other : ∀ d < fs.blocks, d ∉ added → l.getLast? ≠ some d → fs'.entry d = fs.entry d

/-- The table after `k` rounds that each found a free block. -/
structure Growing (n : ℕ) (e₀ : ℕ → ℕ) (b : ℕ) (l : List ℕ) (k : ℕ) (e : ℕ → ℕ) (t : ℕ)
    (added : List ℕ) : Prop where
  chain : ChainFrom e echfsEndOfChain b (l ++ added)
  last : (l ++ added).getLast? = some t
  used : ∀ c ∈ l ++ added, c < n ∧ e c ≠ 0
  length : added.length = k
  free : ∀ c ∈ added, c < n ∧ e₀ c = 0
  other : ∀ d, d ∉ added → l.getLast? ≠ some d → e d = e₀ d
  zero : e 0 ≠ 0
  left : (freeCells n e).card + k = (freeCells n e₀).card

theorem Growing.step {added : List ℕ} (h : Growing n e0 b l k e t added) (hn : n < 2 ^ 62)
    (hk : k < (freeCells n e0).card) (hp : Pick n e f) :
    Growing n e0 b l (k + 1) (linkEntry e t f) f (added ++ [f]) := by
  have hleft := h.left
  obtain ⟨c, hc⟩ : (freeCells n e).Nonempty := Finset.card_pos.1 (by omega)
  obtain ⟨hf, hzero⟩ := hp.free ⟨c, mem_freeCells.1 hc⟩
  have hf0 : f ≠ 0 := fun h0 => h.zero (h0 ▸ hzero)
  have hfl : f ∉ l ++ added := fun hmem => (h.used f hmem).2 hzero
  have htl := List.mem_of_getLast? h.last
  have htf : t ≠ f := fun htf => hfl (htf ▸ htl)
  have hend : f ≠ echfsEndOfChain := by
    unfold echfsEndOfChain
    omega
  refine ⟨?_, ?_, ?_, ?_, ?_, ?_, linkEntry_zero fun _ => h.zero, ?_⟩
  · rw [← append_assoc]
    exact h.chain.extend h.last hfl hend (linkEntry_tail htf) linkEntry_self
      fun d hd hdt => linkEntry_of_ne (fun hdf => hfl (hdf ▸ hd)) hdt
  · rw [← append_assoc, List.getLast?_concat]
  · intro c hc
    rw [← append_assoc, mem_append, mem_singleton] at hc
    unfold linkEntry
    split_ifs with hcf hct
    · exact ⟨hcf ▸ hf, endOfChain_ne_zero⟩
    · exact ⟨hct ▸ (h.used t htl).1, hf0⟩
    · exact h.used c (hc.resolve_right hcf)
  · rw [length_append, h.length, length_singleton]
  · intro c hc
    rcases mem_append.1 hc with hc | hc
    · exact h.free c hc
    · obtain rfl := mem_singleton.1 hc
      refine ⟨hf, ?_⟩
      rw [← h.other c (fun hmem => hfl (mem_append_right _ hmem)) fun hlast =>
        hfl (mem_append_left _ (List.mem_of_getLast? hlast))]
      exact hzero
  · intro d hd hlast
    rw [mem_append, mem_singleton, not_or] at hd
    -- the last block is an added one or the old end of the chain
    have hdt : d ≠ t := fun hdt => by
      have ht := h.last
      rw [List.getLast?_append, Option.or_eq_some_iff] at ht
      rcases ht with ht | ⟨-, ht⟩
      · exact hd.1 (hdt ▸ List.mem_of_getLast? ht)
      · exact hlast (hdt ▸ ht)
    rw [linkEntry_of_ne hd.2 hdt]
    exact h.other d hd.1 hlast
  · have hcard : (freeCells n (linkEntry e t f)).card + 1 = (freeCells n e).card :=
      card_free_link (fun _ => rfl) hf hzero hf0 (h.used t htl).2
    omega

/-- The rounds while there are free blocks, with block `0` in use. -/
theorem Usable.extendLoop_grown (h : fs.Usable) (hl : fs.FileChain b l)
    (ht : l.getLast? = some t) (h0 : fs.entry 0 ≠ 0) (hn : l.length ≤ n)
    (hroom : n - l.length ≤ fs.freeBlocks.card) :
    ∃ added, GrownBy fs (Echfs.extendLoop (n - l.length) t fs) b l added n := by
  have hstart : Growing fs.blocks fs.entry b l 0 fs.entry t [] := by
    refine ⟨?_, ?_, ?_, rfl, by simp, fun _ _ _ => rfl, h0, rfl⟩
    · rw [append_nil]
      exact hl.chain
    · rw [append_nil]
      exact ht
    · rw [append_nil]
      exact fun c hc => ⟨hl.lt c hc, hl.used c hc⟩
  obtain ⟨hblocks, t', added, hg⟩ := h.extendLoop
    (I := fun k e t => ∃ added, Growing fs.blocks fs.entry b l k e t added) (m := n - l.length)
    (hl.lt t (List.mem_of_getLast? ht)) ⟨[], hstart⟩ fun k hk e t f _ ⟨added, hg⟩ hp =>
      ⟨_, hg.step h.addressable.blocks_lt (by rw [← freeBlocks_eq]; omega) hp⟩
  refine ⟨added, ⟨hg.chain, fun c hc => hblocks ▸ (hg.used c hc).1, fun c hc => (hg.used c hc).2⟩,
    hg.chain.nodup, ?_, hg.free, fun d _ => hg.other d⟩
  rw [length_append, hg.length]
  omega

/-! ### Too many rounds -/

/-- Once a round was made, block `0` is in use. -/
theorem Usable.extendLoop_zero (h : fs.Usable) (ht : t < fs.blocks) (h0 : fs.entry 0 = 0)
    (hm : m ≠ 0) : (Echfs.extendLoop m t fs).entry 0 ≠ 0 := by
  obtain ⟨-, -, hI⟩ := h.extendLoop (I := fun k e _ => e 0 = 0 ↔ k = 0) (m := m) ht (by simp [h0])
    fun k _ e t f _ hI hp => by
      have hne : linkEntry e t f 0 ≠ 0 := linkEntry_zero (mt hp.zero)
      simp [hne]
  exact fun hz => hm (hI.1 hz)

/-- The rounds with a free block `f` that was taken first, behind the end `t₀`.  Either `f` has a
successor for good, or `f` was the only free block and is linked and unlinked in turn. -/
def Exhausted (n t₀ f k : ℕ) (e : ℕ → ℕ) (t : ℕ) : Prop :=
  e 0 ≠ 0 ∧ ((e f ≠ 0 ∧ t ≠ f) ∨
    (t₀ ≠ 0 → e t₀ = f) ∧
      ((Odd k ∧ t = f ∧ e f ≠ 0) ∨ (Even k ∧ t = 0 ∧ e f = 0 ∧ ∀ b < n, e b = 0 → b = f)))

theorem Exhausted.step {t0 g : ℕ} (h : Exhausted n t0 f k e t) (hf0 : f ≠ 0) (hft : t0 ≠ f)
    (hf : f < n) (hp : Pick n e g) : Exhausted n t0 f (k + 1) (linkEntry e t g) g := by
  obtain ⟨h0, hcases⟩ := h
  refine ⟨linkEntry_zero fun _ => h0, ?_⟩
  rcases hcases with ⟨hused, htf⟩ | ⟨htail, hodd | heven⟩
  · -- a block in use is not taken again
    have hgf : g ≠ f := by
      rintro rfl
      by_cases hfree : ∃ b < n, e b = 0
      · exact hused (hp.free hfree).2
      · exact hf0 (hp.none fun b hb hb0 => hfree ⟨b, hb, hb0⟩)
    exact Or.inl ⟨by rwa [linkEntry_of_ne hgf.symm htf.symm], hgf⟩
  · obtain ⟨hk, rfl, hused⟩ := hodd
    by_cases hfree : ∃ b < n, e b = 0
    · obtain ⟨-, hg⟩ := hp.free hfree
      have hgt : g ≠ t := fun hgt => hused (hgt ▸ hg)
      refine Or.inl ⟨?_, hgt⟩
      rw [linkEntry_tail hgt.symm]
      exact fun hg0 => h0 (hg0 ▸ hg)
    · have hnone : ∀ b < n, e b ≠ 0 := fun b hb hb0 => hfree ⟨b, hb, hb0⟩
      obtain rfl := hp.none hnone
      refine Or.inr ⟨fun ht0 => ?_, Or.inr ⟨hk.add_one, rfl, linkEntry_tail hf0, ?_⟩⟩
      · rw [linkEntry_of_ne ht0 hft]
        exact htail ht0
      · intro b hb hb0
        by_contra hbt
        have hb₀ : b ≠ 0 := by
          rintro rfl
          exact endOfChain_ne_zero (linkEntry_self.symm.trans hb0)
        rw [linkEntry_of_ne hb₀ hbt] at hb0
        exact hnone b hb hb0
  · obtain ⟨hk, rfl, hzero, honly⟩ := heven
    obtain ⟨hg, hg0⟩ := hp.free ⟨f, hf, hzero⟩
    obtain rfl := honly g hg hg0
    refine Or.inr ⟨fun ht0 => ?_, Or.inl ⟨hk.add_one, rfl, ?_⟩⟩
    · rw [linkEntry_of_ne hft ht0]
      exact htail ht0
    · rw [linkEntry_self]
      exact endOfChain_ne_zero

/-- With a free block the table is not the old one after the rounds. -/
theorem Usable.not_restored (h : fs.Usable) (hl : fs.FileChain b l) (ht : l.getLast? = some t)
    (h0 : fs.entry 0 ≠ 0) (hfree : ∃ b < fs.blocks, fs.entry b = 0)
    (hm : t = 0 → Odd (m + 1)) :
    ¬ ∀ d < fs.blocks, (Echfs.extendLoop (m + 1) t fs).entry d = fs.entry d := by
  have htb := hl.lt t (List.mem_of_getLast? ht)
  have hend : fs.entry t = echfsEndOfChain := next_getLast hl.chain ht
  obtain ⟨hu, hblocks, hpick, hentry⟩ := h.linkFree htb
  obtain ⟨hf, hf0⟩ := hpick.free hfree
  rw [extendLoop_succ]
  generalize fs.findFreeBlock.1 = f at *
  have hfzero : f ≠ 0 := fun hz => h0 (hz ▸ hf0)
  have htf : t ≠ f := fun htf => endOfChain_ne_zero (by rw [← hend, htf, hf0])
  have hstart : Exhausted fs.blocks t f 1 (fs.linkFree t).entry f := by
    rw [hentry]
    refine ⟨linkEntry_zero fun _ => h0, Or.inr ⟨fun _ => linkEntry_tail htf,
      Or.inl ⟨odd_one, rfl, ?_⟩⟩⟩
    rw [linkEntry_self]
    exact endOfChain_ne_zero
  obtain ⟨-, t', -, hI⟩ := hu.extendLoop (I := fun k => Exhausted fs.blocks t f (k + 1)) (m := m)
    (hblocks ▸ hf) hstart fun k _ e t' g _ hI hp => hI.step hfzero htf hf (hblocks ▸ hp)
  intro hsame
  rw [hsame f hf, hsame t htb, hf0] at hI
  rcases hI with ⟨hne, -⟩ | ⟨htail, ⟨-, -, hne⟩ | ⟨heven, -, -, -⟩⟩
  · exact hne rfl
  · exact hne rfl
  · -- the free block is free again after an even number of rounds, and the end of the chain is lost
    by_cases htz : t = 0
    · exact not_odd_iff_even.2 heven (hm htz)
    · have hlt := h.addressable.blocks_lt
      have hbad := hend.symm.trans (htail htz)
      unfold echfsEndOfChain at hbad
      omega

/-- The rounds without a free block, behind an end `t₀ ≠ 0`: block `0` and `t₀` are linked to each
other in turn. -/
def Alternating (e₀ : ℕ → ℕ) (t₀ k : ℕ) (e : ℕ → ℕ) (t : ℕ) : Prop :=
  (Odd k ∧ t = 0 ∧ e = linkEntry e₀ t₀ 0) ∨
    (Even k ∧ t = t₀ ∧ e = if k = 0 then e₀ else update e₀ 0 t₀)

theorem Alternating.step {t0 : ℕ} (h : Alternating e0 t0 k e t) (ht0 : t0 < n) (hne : t0 ≠ 0)
    (hend : e0 t0 = echfsEndOfChain) (hfull : ∀ b < n, e0 b ≠ 0) (hp : Pick n e f) :
    Alternating e0 t0 (k + 1) (linkEntry e t f) f := by
  rcases h with ⟨hk, rfl, rfl⟩ | ⟨hk, rfl, rfl⟩
  · -- the end of the chain is the only free block
    obtain ⟨hf, hf0⟩ := hp.free ⟨t0, ht0, linkEntry_tail hne⟩
    have hft : f = t0 := by
      by_contra hft
      by_cases hfz : f = 0
      · rw [hfz, linkEntry_self] at hf0
        exact endOfChain_ne_zero hf0
      · rw [linkEntry_of_ne hfz hft] at hf0
        exact hfull f hf hf0
    subst hft
    refine Or.inr ⟨hk.add_one, rfl, ?_⟩
    rw [if_neg k.succ_ne_zero]
    funext d
    by_cases hdf : d = f
    · rw [hdf, linkEntry_self, update_of_ne hne, hend]
    · by_cases hdz : d = 0
      · rw [hdz, linkEntry_tail (Ne.symm hne), update_self]
      · rw [linkEntry_of_ne hdf hdz, linkEntry_of_ne hdz hdf, update_of_ne hdz]
  · have hnone : ∀ b < n, (if k = 0 then e0 else update e0 0 t) b ≠ 0 := by
      intro b hb
      by_cases hz : k = 0
      · rw [if_pos hz]
        exact hfull b hb
      · rw [if_neg hz, update_apply]
        split_ifs
        · exact hne
        · exact hfull b hb
    obtain rfl := hp.none hnone
    refine Or.inl ⟨hk.add_one, rfl, funext fun d => ?_⟩
    by_cases hdz : d = 0
    · rw [hdz, linkEntry_self, linkEntry_self]
    · by_cases hdt : d = t
      · rw [hdt, linkEntry_tail hne, linkEntry_tail hne]
      · rw [linkEntry_of_ne hdz hdt, linkEntry_of_ne hdz hdt]
        split_ifs
        · rfl
        · rw [update_of_ne hdz]

/-- Without a free block the table is the old one again if block `0` is the chain, or led to its end
and the number of rounds is even. -/
theorem Usable.restored_full (h : fs.Usable) (hl : fs.FileChain b l) (ht : l.getLast? = some t)
    (hfull : ∀ b < fs.blocks, fs.entry b ≠ 0) (hm : m ≠ 0) :
    (∀ d < fs.blocks, (Echfs.extendLoop m t fs).entry d = fs.entry d) ↔
      t = 0 ∨ (fs.entry 0 = t ∧ Even m) := by
  have htb := hl.lt t (List.mem_of_getLast? ht)
  have hend : fs.entry t = echfsEndOfChain := next_getLast hl.chain ht
  by_cases htz : t = 0
  · subst htz
    obtain ⟨-, -, hI, -⟩ := h.extendLoop (I := fun _ e t => e = fs.entry ∧ t = 0) (m := m) htb
      ⟨rfl, rfl⟩ fun k _ e t f _ hI hp => by
        obtain ⟨rfl, rfl⟩ := hI
        obtain rfl := hp.none hfull
        refine ⟨funext fun d => ?_, rfl⟩
        by_cases hd : d = 0
        · rw [hd, linkEntry_self, hend]
        · rw [linkEntry_of_ne hd hd]
    rw [hI]
    simp
  · obtain ⟨-, t', hI⟩ := h.extendLoop (I := Alternating fs.entry t) (m := m) htb
      (Or.inr ⟨Even.zero, rfl, (if_pos rfl).symm⟩)
      fun k _ e t f _ hI hp => hI.step htb htz hend hfull hp
    rcases hI with ⟨hk, -, hI⟩ | ⟨hk, -, hI⟩
    · have hlost : (Echfs.extendLoop m t fs).entry t ≠ fs.entry t := by
        rw [hI, linkEntry_tail htz, hend]
        exact endOfChain_ne_zero.symm
      have hodd : ¬ Even m := not_even_iff_odd.2 hk
      simp only [htz, hodd, and_false, or_self, iff_false]
      exact fun hsame => hlost (hsame t htb)
    · rw [if_neg hm] at hI
      simp only [htz, hk, and_true, false_or, hI]
      constructor
      · intro hsame
        have h0 := hsame 0 (zero_lt_of_lt htb)
        exact h0.symm
      · intro h0 d _
        rw [← h0, update_eq_self]

/-! ### The call -/

/-- A chain that is long enough has to stay as it is. -/
theorem grownBy_iff_same (hl : fs.FileChain b l) (hblocks : fs'.blocks = fs.blocks)
    (hn : n ≤ l.length) : (∃ added, GrownBy fs fs' b l added n) ↔
      ∀ d < fs.blocks, fs'.entry d = fs.entry d := by
  constructor
  · rintro ⟨added, hg⟩ d hd
    have hlen := hg.length
    rw [length_append, Nat.max_eq_left hn] at hlen
    obtain rfl : added = [] := eq_nil_of_length_eq_zero (by omega)
    by_cases hlast : l.getLast? = some d
    · have hchain := hg.chain.chain
      rw [append_nil] at hchain
      rw [next_getLast hchain hlast, next_getLast hl.chain hlast]
    · exact hg.other d hd not_mem_nil hlast
  · intro hsame
    refine ⟨[], ?_, ?_, ?_, by simp, fun d hd _ _ => hsame d hd⟩
    · rw [append_nil]
      refine ⟨hl.chain.congr fun c hc => hsame c (hl.lt c hc), fun c hc => hblocks ▸ hl.lt c hc,
        fun c hc => ?_⟩
      rw [hsame c (hl.lt c hc)]
      exact hl.used c hc
    · rw [append_nil]
      exact hl.chain.nodup
    · rw [append_nil, Nat.max_eq_left hn]

/-- `allocate_blocks_for_file` counts the chain and makes the rounds. -/
theorem Usable.allocateBlocksForFile_eq {file : DirEntry} (h : fs.Usable)
    (hl : fs.FileChain file.startingBlock l) : ∃ t fs1, l.getLast? = some t ∧ fs1.Usable ∧
      CacheOf fs fs1 ∧ fs.allocateBlocksForFile file n =
        .ok (Echfs.extendLoop ((n + 2 ^ 64 - l.length) % 2 ^ 64) t fs1) := by
  have hlen := hl.length_le
  have hlt := h.addressable.blocks_lt
  obtain ⟨t, fs1, hloop, ht, hu, hm⟩ : ∃ t fs1, chainLoop (2 ^ 64) 0 file.startingBlock fs =
      .ok (0 + l.length, t, fs1) ∧ _ :=
    readsTable_usable.chainLoop h hl.chain hl.lt (by omega) (by omega)
  refine ⟨t, fs1, ht, hu, hm, ?_⟩
  unfold Echfs.allocateBlocksForFile
  rw [hloop, ok_bind, Nat.zero_add]
  rfl

theorem FileChain.cacheOf (hl : fs.FileChain b l) (hm : CacheOf fs fs') : fs'.FileChain b l := by
  obtain ⟨m, rfl⟩ := hm
  exact ⟨hl.chain, hl.lt, hl.used⟩

theorem GrownBy.of_cacheOf {fs1 : Echfs} {added : List ℕ} (hm : CacheOf fs fs1) :
    GrownBy fs1 fs' b l added n ↔ GrownBy fs fs' b l added n := by
  obtain ⟨m, rfl⟩ := hm
  exact ⟨fun h => ⟨h.chain, h.nodup, h.length, h.free, h.other⟩,
    fun h => ⟨h.chain, h.nodup, h.length, h.free, h.other⟩⟩

/-- The condition under which a chain of the blocks `l` can be made `n` blocks long.  A longer chain
is damaged, unless there is no free block and block `0` makes up for it. -/
def Allocates (fs : Echfs) (l : List ℕ) (n : ℕ) : Prop :=
  l.length = n ∨ (l.length < n ∧ fs.entry 0 ≠ 0) ∨
    (n < l.length ∧ (∀ b < fs.blocks, fs.entry b ≠ 0) ∧
      (l.getLast? = some 0 ∨ (l.getLast? = some (fs.entry 0) ∧ Even (l.length - n))))

/-- The rounds do what they are for exactly when the condition holds. -/
theorem Usable.extendLoop_iff (h : fs.Usable) (hl : fs.FileChain b l) (ht : l.getLast? = some t)
    (hn : n < 2 ^ 64) (hroom : n - l.length ≤ fs.freeBlocks.card) :
    (∃ added, GrownBy fs (Echfs.extendLoop ((n + 2 ^ 64 - l.length) % 2 ^ 64) t fs) b l added n) ↔
      fs.Allocates l n := by
  have hlen := hl.length_le
  have hlt := h.addressable.blocks_lt
  have htb := hl.lt t (List.mem_of_getLast? ht)
  unfold Allocates
  rcases Nat.lt_trichotomy l.length n with hless | heq | hmore
  · -- the chain has to grow
    have hrounds : (n + 2 ^ 64 - l.length) % 2 ^ 64 = n - l.length := by omega
    rw [hrounds]
    simp only [hless, true_and, Nat.ne_of_lt hless, Nat.not_lt_of_lt hless, false_and, or_false,
      false_or]
    constructor
    · rintro ⟨added, hg⟩ h0
      have hzero := h.extendLoop_zero htb h0 (sub_ne_zero_of_lt hless)
      have hlast : l.getLast? ≠ some 0 := fun hlast =>
        hl.used 0 (List.mem_of_getLast? hlast) h0
      have hnot := hg.chain.zero_notMem_added hl.chain.ne_nil
      rw [hg.other 0 (zero_lt_of_lt htb) hnot hlast] at hzero
      exact hzero h0
    · intro h0
      exact h.extendLoop_grown hl ht h0 hless.le hroom
  · -- nothing to do
    have hrounds : (n + 2 ^ 64 - l.length) % 2 ^ 64 = 0 := by omega
    have hnone : Echfs.extendLoop 0 t fs = fs := rfl
    rw [hrounds, hnone, grownBy_iff_same hl rfl heq.ge]
    simp [heq]
  · -- the difference wraps around
    have hrounds : (n + 2 ^ 64 - l.length) % 2 ^ 64 = 2 ^ 64 - (l.length - n) := by omega
    obtain ⟨m, hm⟩ : ∃ m, 2 ^ 64 - (l.length - n) = m + 1 := ⟨2 ^ 64 - (l.length - n) - 1, by omega⟩
    have hparity : Even (m + 1) ↔ Even (l.length - n) := by
      rw [even_iff, even_iff]
      omega
    have hkeep := (h.extendLoop (I := fun _ _ _ => True) (m := m + 1) htb trivial
      fun _ _ _ _ _ _ _ _ => trivial).1
    rw [hrounds, hm, grownBy_iff_same hl hkeep hmore.le]
    simp only [hmore, Nat.ne_of_gt hmore, Nat.not_lt_of_lt hmore, false_and, false_or, true_and,
      ht, Option.some.injEq]
    by_cases hfree : ∃ b < fs.blocks, fs.entry b = 0
    · have hnot : ¬ ∀ b < fs.blocks, fs.entry b ≠ 0 := fun hfull => by
        obtain ⟨b, hb, hb0⟩ := hfree
        exact hfull b hb hb0
      simp only [hnot, false_and, iff_false]
      by_cases h0 : fs.entry 0 = 0
      · intro hsame
        have hzero := h.extendLoop_zero (m := m + 1) htb h0 m.succ_ne_zero
        rw [hsame 0 (zero_lt_of_lt htb)] at hzero
        exact hzero h0
      · refine h.not_restored hl ht h0 hfree fun htz => ?_
        have hone := hl.length_of_getLast_zero (htz ▸ ht)
        rw [← not_even_iff_odd, hparity, even_iff]
        omega
    · have hfull : ∀ b < fs.blocks, fs.entry b ≠ 0 := fun b hb hb0 => hfree ⟨b, hb, hb0⟩
      rw [h.restored_full hl ht hfull m.succ_ne_zero, hparity, and_iff_right hfull,
        eq_comm (a := t) (b := fs.entry 0)]

/-- **`allocate_blocks_for_file`**, for every table with a finite chain and enough free blocks: the
chain gets as long as requested exactly under `Allocates`. -/
theorem Usable.allocateBlocksForFile_iff {file : DirEntry} (h : fs.Usable)
    (hl : fs.FileChain file.startingBlock l) (hn : n < 2 ^ 64)
    (hroom : n - l.length ≤ fs.freeBlocks.card) :
    (∃ fs' added, fs.allocateBlocksForFile file n = .ok fs' ∧
      GrownBy fs fs' file.startingBlock l added n) ↔ fs.Allocates l n := by
  obtain ⟨t, fs1, ht, hu, hm, hcall⟩ := h.allocateBlocksForFile_eq (n := n) hl
  have hiff := hu.extendLoop_iff (hl.cacheOf hm) ht hn
    (by rw [freeBlocks_eq, hm.shape.blocks, hm.entry_eq]; exact hroom)
  have hcond : fs1.Allocates l n ↔ fs.Allocates l n := by
    unfold Allocates
    rw [hm.shape.blocks, hm.entry_eq]
  rw [← hcond, ← hiff, hcall]
  constructor
  · rintro ⟨fs', added, hok, hg⟩
    cases hok
    exact ⟨added, (GrownBy.of_cacheOf hm).2 hg⟩
  · rintro ⟨added, hg⟩
    exact ⟨_, added, rfl, (GrownBy.of_cacheOf hm).1 hg⟩

/-- A file of the blocks 21 and 22, on a volume where block 23 is free. -/
def twoBlocks : Echfs := smallVolume (smallDisk
  (fun b => if b = 21 then 22 else if b < 23 then echfsEndOfChain else 0) fun _ _ => 0)

/-- The directory entry of the file. -/
def fileAt21 : DirEntry := ⟨entryBytes echfsRootDirId echfsTypeFile 21 300 [0x61], 0⟩

theorem usable_twoBlocks : twoBlocks.Usable := ⟨coherent_init rfl, addressable_smallVolume _⟩

theorem startingBlock_fileAt21 : fileAt21.startingBlock = 21 := by decide +kernel

theorem fileChain_twoBlocks : twoBlocks.FileChain fileAt21.startingBlock [21, 22] := by
  have h21 : twoBlocks.entry 21 = 22 := by decide +kernel
  have h22 : twoBlocks.entry 22 = echfsEndOfChain := by decide +kernel
  rw [startingBlock_fileAt21]
  refine ⟨.cons (by rw [h21]; decide) ?_, by decide, ?_⟩
  · rw [h21]
    exact .last h22
  · rintro c hc
    rcases mem_pair.1 hc with rfl | rfl
    · rw [h21]
      decide
    · rw [h22]
      decide

/-- A third block is added. -/
theorem allocateBlocksForFile_twoBlocks : ∃ fs' added,
    twoBlocks.allocateBlocksForFile fileAt21 3 = .ok fs' ∧
      GrownBy twoBlocks fs' fileAt21.startingBlock [21, 22] added 3 := by
  have hfree : 23 ∈ twoBlocks.freeBlocks := mem_freeBlocks.2 ⟨by decide, by decide +kernel⟩
  have hroom : 3 - [21, 22].length ≤ twoBlocks.freeBlocks.card := Finset.card_pos.2 ⟨23, hfree⟩
  exact (usable_twoBlocks.allocateBlocksForFile_iff fileChain_twoBlocks (by decide) hroom).2
    (Or.inr (Or.inl ⟨by decide, by decide +kernel⟩))

/-- **A file of two blocks of which one is requested** does not stay as it is. -/
theorem allocateBlocksForFile_damages : twoBlocks.Usable ∧
    twoBlocks.FileChain fileAt21.startingBlock [21, 22] ∧
    ∃ fs', twoBlocks.allocateBlocksForFile fileAt21 1 = .ok fs' ∧
      ¬ ∃ added, GrownBy twoBlocks fs' fileAt21.startingBlock [21, 22] added 1 := by
  have hl := fileChain_twoBlocks
  obtain ⟨t, fs1, ht, hu, hm, hcall⟩ := usable_twoBlocks.allocateBlocksForFile_eq (n := 1) hl
  refine ⟨usable_twoBlocks, hl, _, hcall, ?_⟩
  rw [← exists_congr fun added => GrownBy.of_cacheOf hm]
  rw [hu.extendLoop_iff (hl.cacheOf hm) ht (by decide) (by simp)]
  unfold Allocates
  rw [hm.shape.blocks, hm.entry_eq]
  rintro (h | ⟨h, -⟩ | ⟨-, hfull, -⟩)
  · exact absurd h (by decide)
  · exact absurd h (by decide)
  · exact hfull 23 (by decide) (by decide +kernel)

end Echfs

end DripOS
