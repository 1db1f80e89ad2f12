import DripOS.Klibc.Guard
import DripOS.Mm.ByteCopy

/-!
# Blocks that change their size

`kcalloc` and `krealloc` of `src/klibc/stdlib.c`, with the live blocks of `DripOS.Klibc.Guard` and
their bytes.  `krealloc` copies the old block also when the new one is smaller.

* `Machine.LiveBlock.congr` : a step elsewhere leaves a block alone;
* `Machine.kcallocGuarded_spec` : `kcalloc` returns a live block of zeros;
* `Machine.reallocated_iff` : **`krealloc` moves the contents into the new block**, and stores no
  byte outside of it, exactly when the old block is not empty, the new one is not smaller, and there
  is room for it.
-/

namespace DripOS

open TableTree List Bytes

namespace Machine

/-! ### The functions -/

/-- `kcalloc`, with the addresses at which bytes are stored. -/
def kcallocGuarded (s : Machine) (base size : ℕ) : Except Halt (Ptr × Machine × List ℕ) := do
  let buffer ← s.kmallocGuarded base size
  let st ← memset base buffer.1 0 size (buffer.2, [])
  pure (buffer.1, st)

/-- `krealloc`, with the addresses at which bytes are stored. -/
def kreallocGuarded (s : Machine) (base addr newSize : ℕ) :
    Except Halt (Ptr × Machine × List ℕ) := do
  let newBuffer ← s.kcallocGuarded base newSize
  if addr = 0 then pure newBuffer
  else do
    let sizeData := (addr + (2 ^ 64 - 0x1000)) % 2 ^ 64
    let r ← newBuffer.2.1.vmmMap base (getLowerHalf sizeData) sizeData 1 (vmmPresent ||| vmmWrite)
    let size ← r.2.loadWord base sizeData
    let st ← memcpy base addr newBuffer.1 ((size + (2 ^ 64 - 0x2000)) % 2 ^ 64)
      (r.2, newBuffer.2.2)
    let s ← st.1.kfreeGuarded base addr
    pure (newBuffer.1, s, st.2)

variable {s s' s3 : Machine} {r a b m n f i : ℕ} {V : Set PtOff} {W : Set ℕ}
  {res : Ptr × Machine × List ℕ}

/-! ### Live blocks and other steps -/

/-- Storing bytes that are in no table. -/
theorem StoredBytes.alters {x : ℕ} {v : Bytes} (h : StoredBytes x n v s s')
    (htables : ∀ t, IsPageTable s.mem r t → t * 0x1000 + 0x1000 ≤ x ∨ x + n ≤ t * 0x1000) :
    Alters r ∅ {f | x < f * 0x1000 + 0x1000 ∧ f * 0x1000 < x + n} s s' := by
  have htable : ∀ t, IsPageTable s.mem r t → s'.mem t = s.mem t :=
    fun t ht => h.frame t (htables t ht)
  refine ⟨pageWalk_congr htable, fun v _ => translate_congr htable v, fun f hf _ => h.frame f ?_⟩
  have hout : ¬ (x < f * 0x1000 + 0x1000 ∧ f * 0x1000 < x + n) := hf
  omega

/-- A step elsewhere leaves a block alone. -/
theorem SizedBlock.congr (h : SizedBlock s r a n) (hs : Alters r V W s s')
    (hmax : s'.pmm.bitmapMaxPage = s.pmm.bitmapMaxPage)
    (hused : ∀ f, a ≤ f → f < a + blockPages n → s'.pmm.Used f) (hW : a ∉ W)
    (hV : ∀ f, a < f → f < a + blockPages n → directPage f ∉ V) : SizedBlock s' r a n where
  pos := h.pos
  bound := hmax.symm ▸ h.bound
  used := hused
  notTable f h1 h2 := mt hs.isPageTable.1 (h.notTable f h1 h2)
  table f h1 h2 := by
    obtain ⟨t, ht⟩ := h.table f h1 h2
    exact ⟨t, (hs.walk _).trans ht⟩
  mapped f h1 h2 := (hs.translate _ (hV f h1 (by omega))).trans (h.mapped f h1 h2)
  upper := by
    have htwo := two_le_blockPages n
    exact (hs.translate _ (hV _ (by omega) (by omega))).trans h.upper
  size := by
    have htwo := two_le_blockPages n
    rw [hs.frame a hW (h.notTable a le_rfl (by omega))]
    exact h.size
  signature := by
    have htwo := two_le_blockPages n
    rw [hs.frame a hW (h.notTable a le_rfl (by omega))]
    exact h.signature

theorem LiveBlock.congr (h : LiveBlock s r a n) (hs : Alters r V W s s')
    (hmax : s'.pmm.bitmapMaxPage = s.pmm.bitmapMaxPage)
    (hused : ∀ f, a ≤ f → f < a + blockPages n → s'.pmm.Used f) (hW : a ∉ W)
    (hV : ∀ f, a ≤ f → f < a + blockPages n → directPage f ∉ V) : LiveBlock s' r a n := by
  have htwo := two_le_blockPages n
  exact ⟨h.toSizedBlock.congr hs hmax hused hW fun f h1 h2 => hV f h1.le h2,
    (hs.translate _ (hV a le_rfl (by omega))).trans h.lower⟩

/-- So does one that leaves the physical memory manager alone. -/
theorem SizedBlock.of_pmm_eq (h : SizedBlock s r a n) (hs : Alters r V W s s')
    (hpmm : s'.pmm = s.pmm) (hW : a ∉ W)
    (hV : ∀ f, a < f → f < a + blockPages n → directPage f ∉ V) : SizedBlock s' r a n :=
  h.congr hs (by rw [hpmm]) (fun f h1 h2 => by rw [hpmm]; exact h.used f h1 h2) hW hV

theorem LiveBlock.of_pmm_eq (h : LiveBlock s r a n) (hs : Alters r V W s s')
    (hpmm : s'.pmm = s.pmm) (hW : a ∉ W)
    (hV : ∀ f, a ≤ f → f < a + blockPages n → directPage f ∉ V) : LiveBlock s' r a n :=
  h.congr hs (by rw [hpmm]) (fun f h1 h2 => by rw [hpmm]; exact h.used f h1 h2) hW hV

theorem SizedBlock.toPhys (h : SizedBlock s r a n) (hdirect : a + blockPages n ≤ 2 ^ 35)
    (hi : i < n) :
    s.toPhys r ((wordPtr (a + 1) 0 + i) % 2 ^ 64) = some ((a + 1) * 0x1000 + i) := by
  have hlt : a + 1 + i / 0x1000 < a + blockPages n - 1 := by
    unfold blockPages
    omega
  have hpage : vmmVirtToOffs ((wordPtr (a + 1) 0 + i) % 2 ^ 64) =
      directPage (a + 1 + i / 0x1000) := by
    rw [directPage, vmmVirtToOffs_eq_iff, wordPtr_eq (by omega), getHigherHalf, normalVmaOffset]
    omega
  have hoff : (wordPtr (a + 1) 0 + i) % 2 ^ 64 % 0x1000 = i % 0x1000 := by
    rw [wordPtr_eq (by omega), normalVmaOffset]
    omega
  have hsum : (a + 1 + i / 0x1000) * 0x1000 + i % 0x1000 = (a + 1) * 0x1000 + i := by
    rw [Nat.add_mul, Nat.add_assoc, Nat.div_add_mod']
  rw [Machine.toPhys, hpage, h.mapped _ (by omega) hlt, Option.map_some, hoff, hsum]

/-- The bytes of a block are in no table. -/
theorem SizedBlock.bytes_notTable (h : SizedBlock s r a n) {t : ℕ} (ht : IsPageTable s.mem r t) :
    t * 0x1000 + 0x1000 ≤ (a + 1) * 0x1000 ∨ (a + 1) * 0x1000 + n ≤ t * 0x1000 := by
  have hout : ¬ (a ≤ t ∧ t < a + blockPages n) := fun hin => h.notTable t hin.1 hin.2 ht
  unfold blockPages at hout
  omega

/-- The addresses of a block do not wrap around. -/
theorem wordPtr_add_mod (hbound : b + blockPages n ≤ 2 ^ 35) (hi : i ≤ n) :
    (wordPtr (b + 1) 0 + i) % 2 ^ 64 = wordPtr (b + 1) 0 + i := by
  have hlt : b + 1 < 2 ^ 35 := by
    unfold blockPages at hbound
    omega
  rw [wordPtr_eq hlt, normalVmaOffset]
  unfold blockPages at hbound
  omega

/-! ### A block of zeros -/

/-- The frames of a block. -/
def blockFrames (b n : ℕ) : Set ℕ := {f | b ≤ f ∧ f < b + blockPages n}

/-- The state after a block of zeros was taken. -/
structure Cleared (r b n : ℕ) (s s' : Machine) : Prop where
  alloc : Pmm.Allocated s.pmm (blockPages n) b s'.pmm
  live : LiveBlock s' r b n
  alters : Alters r (guardPages b n) (blockFrames b n) s s'
  bytes : ∀ x, x / 0x1000 ≠ b → ¬ IsPageTable s.mem r (x / 0x1000) →
    s'.bytes x = s.bytes.patch ((b + 1) * 0x1000) n (fun _ => 0) x

/-- The frames that hold the bytes of a block are frames of the block. -/
theorem mem_blockFrames (hmn : m ≤ n) (hf : (b + 1) * 0x1000 < f * 0x1000 + 0x1000 ∧
    f * 0x1000 < (b + 1) * 0x1000 + m) : f ∈ blockFrames b n ∧ b < f := by
  have hlt : b ≤ f ∧ f < b + blockPages n := by
    unfold blockPages
    omega
  exact ⟨hlt, by omega⟩

/-- **`kcalloc` returns a block of zeros**, and halts only when there is no room. -/
theorem kcallocGuarded_spec (hk : KernelMap s r) (hn : n + 0x2fff < 2 ^ 64) :
    Ensures (fun e => e = .noFreeMemory ∧ ∀ b, ¬ s.pmm.Run b (blockPages n))
      (s.kcallocGuarded (r * 0x1000) n) fun res => ∃ b, res.1 = wordPtr (b + 1) 0 ∧
        Cleared r b n s res.2.1 ∧
        res.2.2 = (List.range n).map fun i => (wordPtr (b + 1) 0 + i) % 2 ^ 64 := by
  refine (kmallocGuarded_spec hk hn).bind fun res hres => ?_
  obtain ⟨b, haddr, hblock⟩ := hres
  have hlive := hblock.live hk
  have hbound := hblock.guarding.bound hk
  have htables : ∀ t, IsPageTable res.2.mem r t → t * 0x1000 + 0x1000 ≤ (b + 1) * 0x1000 ∨
      (b + 1) * 0x1000 + n ≤ t * 0x1000 := fun t ht => hlive.bytes_notTable ht
  obtain ⟨s2, hloop, hstored⟩ := @storeLoop_spec res.2 r ((b + 1) * 0x1000) n (wordPtr (b + 1) 0)
    (fun _ => 0) [] (fun _ _ => .ok 0) (fun i hi => hlive.toPhys hbound hi) htables
    fun _ _ _ _ => rfl
  have halt := hstored.alters htables
  have hpmm : s2.pmm = res.2.pmm := hstored.pmm
  rw [haddr, memset, hloop, ok_bind]
  refine ⟨b, rfl, ⟨?_, ?_, ?_, fun x hx ht => ?_⟩, nil_append _⟩
  · rw [hpmm]
    exact hblock.guarding.alloc
  · refine hlive.of_pmm_eq halt hpmm (fun hb => ?_) fun _ _ _ => id
    exact absurd (mem_blockFrames le_rfl hb).2 (Nat.lt_irrefl b)
  · refine (hblock.guarding.alters.trans halt).mono (Set.union_empty _).subset ?_
    rintro f (rfl | hf)
    · have htwo := two_le_blockPages n
      exact ⟨le_rfl, by omega⟩
    · exact (mem_blockFrames le_rfl hf).1
  · have hsame : res.2.bytes x = s.bytes x := bytes_congr (hblock.guarding.alters.frame _ hx ht)
    rw [hstored.bytes]
    unfold patch
    rw [hsame]

/-! ### Moving a block -/

namespace Cleared

variable (h : Cleared r b n s s')

include h

/-- A frame in use is not one of the new block. -/
theorem not_mem_blockFrames (hf : s.pmm.Used f) : f ∉ blockFrames b n :=
  fun hmem => h.alloc.lowest.1.2 f hmem.1 hmem.2 hf

theorem bound (hk : KernelMap s r) : b + blockPages n ≤ 2 ^ 35 :=
  h.alloc.lowest.1.1.trans hk.heap.direct

/-- A block that is in use keeps its pages. -/
theorem directPage_not_mem (hk : KernelMap s r) (hlive : LiveBlock s r a m) (h1 : a ≤ f)
    (h2 : f < a + blockPages m) : directPage f ∉ guardPages b n := by
  have htwo := two_le_blockPages n
  have hle := hlive.bound.trans hk.heap.direct
  have hout := h.not_mem_blockFrames (hlive.used f h1 h2)
  have hne : ∀ g, b ≤ g → g < b + blockPages n → f ≠ g := by
    rintro g hg1 hg2 rfl
    exact hout ⟨hg1, hg2⟩
  exact directPage_notMem_guardPages (h.bound hk) (by omega) (hne b le_rfl (by omega))
    (hne _ (by omega) (by omega))

theorem old (hk : KernelMap s r) (hlive : LiveBlock s r a m) : LiveBlock s' r a m := by
  have htwo := two_le_blockPages m
  exact hlive.congr h.alters h.alloc.maxPage
    (fun f h1 h2 => (h.alloc.used f).2 (Or.inr (hlive.used f h1 h2)))
    (h.not_mem_blockFrames (hlive.used a le_rfl (by omega)))
    fun f h1 h2 => h.directPage_not_mem hk hlive h1 h2

theorem tree (hk : KernelMap s r) : TreeOk s' r :=
  h.alters.tree hk.tree fun t ht => (h.alloc.used t).2 (Or.inr ht)

end Cleared

/-- The state in which `krealloc` copies the bytes. -/
structure Moving (r a m b n : ℕ) (s s' : Machine) : Prop where
  alloc : Pmm.Allocated s.pmm (blockPages n) b s'.pmm
  old : SizedBlock s' r a m
  lower : translate s'.mem r (directPage a) = some (a, vmmPresent ||| vmmWrite)
  new : LiveBlock s' r b n
  alters : Alters r (guardPages b n ∪ {directPage a}) (blockFrames b n) s s'
  bytes : ∀ x, x / 0x1000 ≠ b → ¬ IsPageTable s.mem r (x / 0x1000) →
    s'.bytes x = s.bytes.patch ((b + 1) * 0x1000) n (fun _ => 0) x

/-- `krealloc` up to the copy. -/
theorem kreallocGuarded_moving (hk : KernelMap s r) (hlive : LiveBlock s r a m)
    (hn : n + 0x2fff < 2 ^ 64) (hnew : s.kcallocGuarded (r * 0x1000) n = .ok res) :
    ∃ b s3, Moving r a m b n s s3 ∧
      s.kreallocGuarded (r * 0x1000) (wordPtr (a + 1) 0) n =
        memcpy (r * 0x1000) (wordPtr (a + 1) 0) (wordPtr (b + 1) 0) m
          (s3, (List.range n).map fun i => (wordPtr (b + 1) 0 + i) % 2 ^ 64) >>= fun st =>
            st.1.kfreeGuarded (r * 0x1000) (wordPtr (a + 1) 0) >>= fun s =>
              pure (wordPtr (b + 1) 0, s, st.2) := by
  obtain ⟨b, haddr, hclear, hlog⟩ := (kcallocGuarded_spec hk hn).of_ok hnew
  have hold := hclear.old hk hlive
  have hle := hlive.bound.trans hk.heap.direct
  have htwo := two_le_blockPages m
  obtain ⟨t, ht⟩ := hold.table a le_rfl (by omega)
  obtain ⟨ret, s3, hmap, hpmm, halt, hpage⟩ := vmmMap_direct (hclear.tree hk) (by omega) ht
    (Or.inl hold.lower)
  have hnotTable : ¬ IsPageTable res.2.1.mem r a := hold.notTable a le_rfl (by omega)
  refine ⟨b, s3, ⟨?_, ?_, hpage, ?_, ?_, fun x hx htx => ?_⟩, ?_⟩
  · rw [hpmm]
    exact hclear.alloc
  · refine hold.toSizedBlock.of_pmm_eq halt hpmm (Set.notMem_empty a) fun f h1 h2 => ?_
    exact directPage_ne (by omega) (by omega) (Nat.ne_of_gt h1)
  · have hbound := hclear.bound hk
    refine hclear.live.of_pmm_eq halt hpmm (Set.notMem_empty b) fun f h1 h2 => ?_
    have hne : f ≠ a := by
      rintro rfl
      exact hclear.not_mem_blockFrames (hlive.used f le_rfl (by omega)) ⟨h1, h2⟩
    exact directPage_ne (by omega) (by omega) hne
  · exact (hclear.alters.trans halt).mono subset_rfl (Set.union_empty _).subset
  · rw [← hclear.bytes x hx htx]
    exact bytes_congr (halt.frame _ (Set.notMem_empty _) (mt hclear.alters.isPageTable.1 htx))
  · have hne : wordPtr (a + 1) 0 ≠ 0 := by
      rw [wordPtr_eq (by omega), normalVmaOffset]
      omega
    obtain ⟨hload, -⟩ := hold.loadWord_head (by omega) hpage
      (halt.frame a (Set.notMem_empty a) hnotTable)
    have hcount : (m + 0x2000 + (2 ^ 64 - 0x2000)) % 2 ^ 64 = m := by
      unfold blockPages at hle
      omega
    unfold kreallocGuarded
    rw [hnew, ok_bind]
    dsimp only
    rw [if_neg hne, wordPtr_header (by omega), getLowerHalf_wordPtr (by omega), hmap, ok_bind]
    rw [hload, ok_bind, hcount, haddr, hlog]

namespace Moving

variable (h : Moving r a m b n s s') {i : ℕ}

include h

theorem tree (hk : KernelMap s r) : TreeOk s' r :=
  h.alters.tree hk.tree fun t ht => (h.alloc.used t).2 (Or.inr ht)

theorem direct (hk : KernelMap s r) : s'.pmm.bitmapMaxPage ≤ 2 ^ 35 := by
  rw [h.alloc.maxPage]
  exact hk.heap.direct

/-- The two blocks have no frame in common. -/
theorem disjoint (hlive : LiveBlock s r a m) (h1 : a ≤ f) (h2 : f < a + blockPages m) :
    f ∉ blockFrames b n :=
  fun hmem => h.alloc.lowest.1.2 f hmem.1 hmem.2 (hlive.used f h1 h2)

theorem bytes_notTable (hmn : m ≤ n) {t : ℕ} (ht : IsPageTable s'.mem r t) :
    t * 0x1000 + 0x1000 ≤ (b + 1) * 0x1000 ∨ (b + 1) * 0x1000 + m ≤ t * 0x1000 := by
  have hout := h.new.bytes_notTable ht
  omega

theorem memcpy (hk : KernelMap s r) (hlive : LiveBlock s r a m) (hmn : m ≤ n) (log : List ℕ) :
    ∃ s4, memcpy (r * 0x1000) (wordPtr (a + 1) 0) (wordPtr (b + 1) 0) m (s', log) =
        .ok (s4, log ++ (List.range m).map fun i => (wordPtr (b + 1) 0 + i) % 2 ^ 64) ∧
      StoredBytes ((b + 1) * 0x1000) m (fun i => s'.bytes ((a + 1) * 0x1000 + i)) s' s4 := by
  have hbound : b + blockPages n ≤ 2 ^ 35 := h.alloc.lowest.1.1.trans hk.heap.direct
  have hle := hlive.bound.trans hk.heap.direct
  refine storeLoop_spec (fun i hi => h.new.toPhys hbound (by omega))
    (fun t ht => h.bytes_notTable hmn ht) fun i s1 hi hstored => ?_
  have hphys : s1.toPhys r ((wordPtr (a + 1) 0 + i) % 2 ^ 64) = some ((a + 1) * 0x1000 + i) := by
    refine (toPhys_congr fun t ht => hstored.frame t ?_).trans (h.old.toPhys hle hi)
    have hout := h.bytes_notTable hmn ht
    omega
  -- the byte that is read is in the old block, and was not stored to
  have hout : ¬ ((b + 1) * 0x1000 ≤ (a + 1) * 0x1000 + i ∧
      (a + 1) * 0x1000 + i < (b + 1) * 0x1000 + i) := by
    intro hin
    have hframe := h.disjoint hlive (f := a + 1 + i / 0x1000) (by omega)
      (by unfold blockPages; omega)
    refine hframe ⟨by omega, ?_⟩
    unfold blockPages
    omega
  rw [loadByte, Nat.mul_div_cancel _ (by decide), hphys]
  rw [hstored.bytes]
  exact congrArg Except.ok (if_neg hout)

theorem frame_new (hi : i < n) :
    ((b + 1) * 0x1000 + i) / 0x1000 ≠ b ∧
      ¬ IsPageTable s.mem r (((b + 1) * 0x1000 + i) / 0x1000) := by
  refine ⟨by omega, fun ht => ?_⟩
  exact h.new.notTable _ (by omega) (by unfold blockPages; omega) (h.alters.isPageTable.2 ht)

theorem bytes_old (hlive : LiveBlock s r a m) (hi : i < m) :
    s'.bytes ((a + 1) * 0x1000 + i) = s.bytes ((a + 1) * 0x1000 + i) := by
  have hframe : ((a + 1) * 0x1000 + i) / 0x1000 = a + 1 + i / 0x1000 := by omega
  have hlt : a + 1 + i / 0x1000 < a + blockPages m := by
    unfold blockPages
    omega
  have hdis := h.disjoint hlive (f := a + 1 + i / 0x1000) (by omega) hlt
  have htwo := two_le_blockPages n
  rw [h.bytes]
  · refine if_neg fun hin => hdis ⟨by omega, ?_⟩
    unfold blockPages
    omega
  · rw [hframe]
    rintro rfl
    exact hdis ⟨le_rfl, by omega⟩
  · rw [hframe]
    exact hlive.notTable _ (by omega) hlt

end Moving

/-- **What `krealloc` is for**: the new block has the bytes of the old one and zeros behind them,
the old one is released, and every store is inside of the new one. -/
structure Reallocated (s : Machine) (r a m n b : ℕ) (s' : Machine) (log : List ℕ) : Prop where
  live : LiveBlock s' r b n
  bytes : ∀ i < n, s'.bytes ((b + 1) * 0x1000 + i) =
    if i < m then s.bytes ((a + 1) * 0x1000 + i) else 0
  /-- The new pages are taken, and then the old ones are returned. -/
  freed : ∃ p, Pmm.Allocated s.pmm (blockPages n) b p ∧
    p.pmmUnalloc (a * 0x1000) (m + 0x2000) = .ok s'.pmm
  /-- The pages of the old block are in the direct map again. -/
  mapped : ∀ f, a ≤ f → f < a + blockPages m →
    translate s'.mem r (directPage f) = some (f, vmmPresent ||| vmmWrite)
  written : ∀ p ∈ log, wordPtr (b + 1) 0 ≤ p ∧ p < wordPtr (b + 1) 0 + n
  /-- Only the new block and the tables change. -/
  frame : ∀ x, ¬ ((b + 1) * 0x1000 ≤ x ∧ x < (b + 1) * 0x1000 + n) → x / 0x1000 ≠ b →
    ¬ IsPageTable s.mem r (x / 0x1000) → s'.bytes x = s.bytes x

/-- **Moving a block that does not shrink.** -/
theorem Moving.reallocated (hk : KernelMap s r) (hlive : LiveBlock s r a m)
    (h : Moving r a m b n s s3) (hm : 0 < m) (hmn : m ≤ n) :
    ∃ s' log, (Machine.memcpy (r * 0x1000) (wordPtr (a + 1) 0) (wordPtr (b + 1) 0) m
        (s3, (List.range n).map fun i => (wordPtr (b + 1) 0 + i) % 2 ^ 64) >>= fun st =>
          st.1.kfreeGuarded (r * 0x1000) (wordPtr (a + 1) 0) >>= fun s =>
            pure (wordPtr (b + 1) 0, s, st.2)) = .ok (wordPtr (b + 1) 0, s', log) ∧
      Reallocated s r a m n b s' log := by
  obtain ⟨s4, hcopy, hstored⟩ := h.memcpy hk hlive hmn
    ((List.range n).map fun i => (wordPtr (b + 1) 0 + i) % 2 ^ 64)
  have halt4 := hstored.alters fun t ht => h.bytes_notTable hmn ht
  have hbound : b + blockPages n ≤ 2 ^ 35 := h.alloc.lowest.1.1.trans hk.heap.direct
  have hle := hlive.bound.trans hk.heap.direct
  have htwo := two_le_blockPages m
  have hdirect : s4.pmm.bitmapMaxPage ≤ 2 ^ 35 := by
    rw [hstored.pmm]
    exact h.direct hk
  have hok4 : TreeOk s4 r := halt4.tree (h.tree hk) fun t ht => by rwa [hstored.pmm]
  have hold : SizedBlock s4 r a m := h.old.of_pmm_eq halt4 hstored.pmm
    (fun hmem => h.disjoint hlive le_rfl (by omega) (mem_blockFrames hmn hmem).1) fun _ _ _ => id
  have hnew : LiveBlock s4 r b n := h.new.of_pmm_eq halt4 hstored.pmm
    (fun hmem => absurd (mem_blockFrames hmn hmem).2 (Nat.lt_irrefl b)) fun _ _ _ => id
  obtain ⟨s5, hfree, hrel⟩ := kfreeGuarded_live hok4 (halt4.tables (h.alters.tables hk.tables))
    hdirect hold hm (Or.inr ((halt4.translate _ id).trans h.lower))
  have hbytes : ∀ x, ¬ IsPageTable s.mem r (x / 0x1000) → s5.bytes x = s4.bytes x :=
    fun x hx => bytes_congr (hrel.alters.frame _ id
      (mt (halt4.isPageTable.trans h.alters.isPageTable).1 hx))
  refine ⟨s5, _, by rw [hcopy, ok_bind, hfree, ok_bind]; rfl, ?_, fun i hi => ?_, ?_, hrel.mapped,
    fun p hp => ?_, fun x hx hxb hxt => ?_⟩
  · have hne : ∀ f g, b ≤ f → f < b + blockPages n → a ≤ g → g < a + blockPages m → f ≠ g := by
      rintro f g h1 h2 h3 h4 rfl
      exact h.disjoint hlive h3 h4 ⟨h1, h2⟩
    refine hnew.congr hrel.alters hrel.maxPage (fun f h1 h2 => ?_) id fun f h1 h2 => ?_
    · exact (hrel.used f).2 ⟨fun hin => hne f f h1 h2 hin.1 hin.2 rfl, hnew.used f h1 h2⟩
    · exact directPage_notMem_guardPages hle (by omega) (hne f a h1 h2 le_rfl (by omega))
        (hne f _ h1 h2 (by omega) (by omega))
  · obtain ⟨hne, hnot⟩ := h.frame_new hi
    rw [hbytes _ hnot, hstored.bytes]
    split_ifs with him
    · rw [patch_add him, h.bytes_old hlive him]
    · rw [patch_of_le (by omega), h.bytes _ hne hnot, patch_add hi]
  · refine ⟨s3.pmm, h.alloc, ?_⟩
    rw [← hstored.pmm]
    exact hrel.pmm
  · have hlt : ∃ i < n, (wordPtr (b + 1) 0 + i) % 2 ^ 64 = p := by
      rcases mem_append.1 hp with hmem | hmem
      · obtain ⟨i, hi, rfl⟩ := mem_map.1 hmem
        exact ⟨i, mem_range.1 hi, rfl⟩
      · obtain ⟨i, hi, rfl⟩ := mem_map.1 hmem
        exact ⟨i, (mem_range.1 hi).trans_le hmn, rfl⟩
    obtain ⟨i, hi, rfl⟩ := hlt
    rw [wordPtr_add_mod hbound hi.le]
    exact ⟨Nat.le_add_right _ _, Nat.add_lt_add_left hi _⟩
  · rw [hbytes x hxt, hstored.bytes, patch, if_neg (by omega), h.bytes x hxb hxt]
    exact if_neg hx

/-- When `krealloc` returns, the old block was not empty, and all of its bytes were stored. -/
theorem Moving.of_ok (hk : KernelMap s r) (h : Moving r a m b n s s3) {log : List ℕ}
    (hres : (Machine.memcpy (r * 0x1000) (wordPtr (a + 1) 0) (wordPtr (b + 1) 0) m (s3, log) >>=
      fun st => st.1.kfreeGuarded (r * 0x1000) (wordPtr (a + 1) 0) >>= fun s =>
        pure (wordPtr (b + 1) 0, s, st.2)) = .ok res) :
    res.1 = wordPtr (b + 1) 0 ∧ 0 < m ∧ ∀ i < m, (wordPtr (b + 1) 0 + i) % 2 ^ 64 ∈ res.2.2 := by
  obtain ⟨st, hcopy, hres⟩ := bind_eq_ok.1 hres
  obtain ⟨s5, hfree, hres⟩ := bind_eq_ok.1 hres
  cases Except.ok.inj hres
  refine ⟨rfl, Nat.pos_of_ne_zero ?_, fun i hi => mem_log_of_storeLoop hcopy hi⟩
  rintro rfl
  cases Except.ok.inj hcopy
  rw [kfreeGuarded_zero (h.tree hk) (h.alters.tables hk.tables) (h.direct hk) h.old] at hfree
  cases hfree

/-- **When `krealloc` moves a block.** -/
theorem reallocated_iff (hk : KernelMap s r) (hlive : LiveBlock s r a m) (n : ℕ) :
    (∃ b s' log, s.kreallocGuarded (r * 0x1000) (wordPtr (a + 1) 0) n =
        .ok (wordPtr (b + 1) 0, s', log) ∧ Reallocated s r a m n b s' log) ↔
      0 < m ∧ m ≤ n ∧ ∃ b, s.pmm.Run b (blockPages n) := by
  have hsize : ∀ b, s.pmm.Run b (blockPages n) → n + 0x2fff < 2 ^ 64 :=
    fun b hrun => size_lt_of_blockPages (hrun.1.trans hk.heap.direct)
  constructor
  · rintro ⟨b, s', log, hres, hre⟩
    obtain ⟨p, halloc, -⟩ := hre.freed
    cases hnew : s.kcallocGuarded (r * 0x1000) n with
    | error e =>
      unfold kreallocGuarded at hres
      rw [hnew] at hres
      cases hres
    | ok res =>
      obtain ⟨b', s3, hmoving, heq⟩ :=
        kreallocGuarded_moving hk hlive (hsize b halloc.lowest.1) hnew
      rw [heq] at hres
      obtain ⟨hptr, hm, hstores⟩ := hmoving.of_ok hk hres
      refine ⟨hm, Nat.le_of_not_lt fun hlt => ?_, b, halloc.lowest.1⟩
      -- the byte behind the new block is stored
      have hmem := hstores n hlt
      rw [wordPtr_add_mod (hmoving.alloc.lowest.1.1.trans hk.heap.direct) le_rfl, ← hptr] at hmem
      exact absurd (hre.written _ hmem).2 (Nat.lt_irrefl _)
  · rintro ⟨hm, hmn, b, hrun⟩
    have hspec := kcallocGuarded_spec hk (hsize b hrun)
    cases hnew : s.kcallocGuarded (r * 0x1000) n with
    | error e =>
      rw [hnew] at hspec
      exact absurd hrun (hspec.2 b)
    | ok res =>
      obtain ⟨b', s3, hmoving, heq⟩ := kreallocGuarded_moving hk hlive (hsize b hrun) hnew
      rw [heq]
      exact ⟨b', hmoving.reallocated hk hlive hm hmn⟩

/-- A block of one byte is moved into one of two bytes. -/
theorem reallocated_sixteenFrames :
    ∃ a s, sixteenFrames.kmallocGuarded 0x1000 1 = .ok (wordPtr (a + 1) 0, s) ∧
      ∃ b s' log, s.kreallocGuarded 0x1000 (wordPtr (a + 1) 0) 2 =
        .ok (wordPtr (b + 1) 0, s', log) ∧ Reallocated s 1 a 1 2 b s' log := by
  have hrun : sixteenFrames.pmm.Run 5 (blockPages 1) :=
    ⟨by decide, fun q h1 h2 => free_sixteenFrames q h1 (by change q < 5 + 3 at h2; omega)⟩
  have hspec := @kmallocGuarded_spec sixteenFrames 1 1 kernelMap_sixteenFrames (by decide)
  cases hmalloc : sixteenFrames.kmallocGuarded (1 * 0x1000) 1 with
  | error e =>
    rw [hmalloc] at hspec
    exact absurd hrun (hspec.2 5)
  | ok res =>
    obtain ⟨a, haddr, hblock⟩ := hspec.of_ok hmalloc
    have halloc := hblock.guarding.alloc
    have hle : a ≤ 5 := Nat.le_of_not_lt fun hlt => halloc.lowest.2 5 hlt hrun
    have hfree : res.2.pmm.Run 8 (blockPages 2) := by
      refine ⟨halloc.maxPage ▸ (by decide), fun q h1 h2 => ?_⟩
      change q < 8 + 3 at h2
      rw [halloc.used]
      rintro (hin | hused)
      · have hlt : q < a + 3 := hin.2
        omega
      · exact free_sixteenFrames q (by omega) (by omega) hused
    refine ⟨a, res.2, congrArg Except.ok (Prod.ext haddr rfl), ?_⟩
    exact (reallocated_iff (hblock.kernelMap kernelMap_sixteenFrames)
      (hblock.live kernelMap_sixteenFrames) 2).2 ⟨by decide, by decide, 8, hfree⟩

/-- A block of two bytes is moved into one of one byte. -/
theorem kreallocGuarded_shrinks :
    ((sixteenFrames.kmallocGuarded 0x1000 2 >>= fun res =>
      res.2.kreallocGuarded 0x1000 res.1 1).toOption.map fun res => (res.1, res.2.2)) =
      some (0xFFFF800000009000, [0xFFFF800000009000, 0xFFFF800000009000, 0xFFFF800000009001]) ∧
    ∃ addr s, sixteenFrames.kmallocGuarded 0x1000 2 = .ok (addr, s) ∧
      ¬ ∃ b s' log, s.kreallocGuarded 0x1000 addr 1 = .ok (wordPtr (b + 1) 0, s', log) ∧
        Reallocated s 1 5 2 1 b s' log := by
  have hrun : ((sixteenFrames.kmallocGuarded 0x1000 2 >>= fun res =>
      res.2.kreallocGuarded 0x1000 res.1 1).toOption.map fun res => (res.1, res.2.2)) =
      some (0xFFFF800000009000, [0xFFFF800000009000, 0xFFFF800000009000, 0xFFFF800000009001]) := by
    decide +kernel
  obtain ⟨res, hres, hlog⟩ := exists_ok_of_map hrun
  obtain ⟨⟨addr, s⟩, hmalloc, hrealloc⟩ := bind_eq_ok.1 hres
  refine ⟨hrun, addr, s, hmalloc, ?_⟩
  rintro ⟨b, s', log, hok, hre⟩
  have hpair : res = (wordPtr (b + 1) 0, s', log) := Except.ok.inj (hrealloc.symm.trans hok)
  obtain ⟨hptr, hstores⟩ := Prod.mk.inj hlog
  rw [hpair] at hptr hstores
  have hmem : 0xFFFF800000009001 ∈ log := by
    rw [show log = _ from hstores]
    exact mem_cons_of_mem _ (mem_cons_of_mem _ (mem_singleton_self _))
  have hlt := (hre.written _ hmem).2
  rw [show wordPtr (b + 1) 0 = _ from hptr] at hlt
  exact absurd hlt (Nat.lt_irrefl _)

end Machine

end DripOS
