import DripOS.Mm.LowerHalf

/-!
# The kernel heap

`kmalloc`, `kfree`, `kcalloc` and `krealloc` of `src/klibc/stdlib.c`.  A block is a run of physical
pages: a page with the size and a signature, the data, and a page to catch accesses past the end.
That the first and the last page are unmapped has no effect on blocks that are used as intended, and
is left out here (`DripOS.Klibc.Guard` has it).

Memory is accessed by words of 64 bits, and the callers pass sizes that are multiples of 8.
-/

namespace DripOS

/-- `MALLOC_SIGNATURE`. -/
def mallocSignature : ℕ := 0xf100f333f100f333

namespace Machine

variable (s : Machine)

/-- The place of the word at `p` in its page. -/
def wordIndex (p : Ptr) : Fin 512 := Fin.ofNat 512 (p / 8)

/-- The word at `p`. -/
def readWord (p : Ptr) : ℕ := s.mem (tableFrame p) (wordIndex p)

/-- Store a word at `p`. -/
def writeWord (p : Ptr) (x : ℕ) : Machine := s.setEntry p (wordIndex p) x

/-- The cell `i` of frame `f` is one of the `words` words from `p` on. -/
def InWords (p : Ptr) (words f : ℕ) (i : Fin 512) : Prop :=
  getLowerHalf p / 8 ≤ f * 512 + i.val ∧ f * 512 + i.val < getLowerHalf p / 8 + words

instance (p : Ptr) (words f : ℕ) (i : Fin 512) : Decidable (InWords p words f i) :=
  inferInstanceAs (Decidable (_ ∧ _))

/-- `memset(p, 0, 8 * words)`. -/
def clearWords (p : Ptr) (words : ℕ) : Machine :=
  { s with mem := fun f i => if InWords p words f i then 0 else s.mem f i }

/-- `memcpy(src, dst, 8 * words)`, for blocks that do not overlap. -/
def copyWords (src dst : Ptr) (words : ℕ) : Machine :=
  { s with mem := fun f i =>
      if InWords dst words f i then
        s.readWord (src + 8 * (f * 512 + i.val - getLowerHalf dst / 8))
      else s.mem f i }

/-- `kmalloc`. -/
def kmalloc (size : ℕ) : Except Halt (Ptr × Machine) := do
  let phys ← s.pmmAlloc (size + 0x2000)
  let sizeData := getHigherHalf phys.1
  let s := phys.2.writeWord sizeData (size + 0x2000)
  let s := s.writeWord (sizeData + 8) mallocSignature
  pure ((sizeData + 0x1000) % 2 ^ 64, s)

/-- `kfree`.  Its assertions: the address is page aligned and part of the direct map. -/
def kfree (addr : Ptr) : Except Halt Machine :=
  if addr % 0x1000 ≠ 0 then .error .fault
  else if tableFrame addr ≥ s.pmm.bitmapMaxPage then .error .fault
  else
    let sizeData := addr - 0x1000
    if s.readWord (sizeData + 8) ≠ mallocSignature then .error .fault
    else s.pmmUnalloc (getLowerHalf sizeData) (s.readWord sizeData)

/-- `kcalloc`. -/
def kcalloc (size : ℕ) : Except Halt (Ptr × Machine) := do
  let buffer ← s.kmalloc size
  pure (buffer.1, buffer.2.clearWords buffer.1 (size / 8))

/-- `krealloc`. -/
def krealloc (addr : Ptr) (newSize : ℕ) : Except Halt (Ptr × Machine) := do
  let new ← s.kcalloc newSize
  if addr = 0 then pure new
  else do
    let s := new.2.copyWords addr new.1 ((new.2.readWord (addr - 0x1000) - 0x2000) / 8)
    let s ← s.kfree addr
    pure (new.1, s)

variable {s}

/-! ### Words -/

/-- The pointer to word `i` of frame `f`. -/
def wordPtr (f i : ℕ) : ℕ := getHigherHalf (f * 0x1000) + 8 * i

section Words

variable {f i : ℕ}

theorem wordPtr_eq (hf : f < 2 ^ 35) : wordPtr f i = normalVmaOffset + f * 0x1000 + 8 * i := by
  unfold wordPtr getHigherHalf normalVmaOffset
  omega

theorem wordPtr_add (j : ℕ) : wordPtr f i + 8 * j = wordPtr f (i + j) := by
  unfold wordPtr
  omega

section

variable (hf : f < 2 ^ 35) (hi : i < 512)
include hf hi

theorem tableFrame_wordPtr : tableFrame (wordPtr f i) = f := by
  rw [wordPtr_eq hf, tableFrame, getLowerHalf, normalVmaOffset]
  omega

theorem wordIndex_wordPtr : wordIndex (wordPtr f i) = ⟨i, hi⟩ := by
  apply Fin.ext
  have h : wordPtr f i / 8 % 512 = i := by
    rw [wordPtr_eq hf, normalVmaOffset]
    omega
  exact h

theorem readWord_wordPtr : s.readWord (wordPtr f i) = s.mem f ⟨i, hi⟩ := by
  rw [readWord, tableFrame_wordPtr hf hi, wordIndex_wordPtr hf hi]

theorem mem_writeWord (x g : ℕ) (j : Fin 512) :
    (s.writeWord (wordPtr f i) x).mem g j = if g = f ∧ j = ⟨i, hi⟩ then x else s.mem g j := by
  rw [writeWord, mem_setEntry, tableFrame_wordPtr hf hi, wordIndex_wordPtr hf hi]

end

@[simp] theorem pmm_writeWord (p : Ptr) (x : ℕ) : (s.writeWord p x).pmm = s.pmm := rfl

/-- A write to one word leaves the other pages alone. -/
theorem mem_writeWord_of_ne (hf : f < 2 ^ 35) (hi : i < 512) (x : ℕ) {g : ℕ} (hg : g ≠ f) :
    (s.writeWord (wordPtr f i) x).mem g = s.mem g := by
  funext j
  rw [mem_writeWord hf hi, if_neg fun h => hg h.1]

theorem inWords_wordPtr (hf : f < 2 ^ 35) {n g : ℕ} {j : Fin 512} (hn : n ≤ 512) :
    InWords (wordPtr f 0) n g j ↔ g = f ∧ j.val < n := by
  have hp : getLowerHalf (wordPtr f 0) / 8 = f * 512 := by
    rw [wordPtr_eq hf, getLowerHalf, normalVmaOffset]
    omega
  have hj := j.isLt
  rw [InWords, hp]
  omega

end Words

/-! ### Blocks of one page -/

/-- The three pages from `a` on form a block of at most one page of data. -/
structure HeapBlock (s : Machine) (a : ℕ) : Prop where
  size : ∃ n ≤ 0x1000, s.mem a 0 = n + 0x2000 ∧ 0 < n
  signature : s.mem a 1 = mallocSignature
  used : ∀ f, a ≤ f → f < a + 3 → s.pmm.Used f
  bound : a + 3 ≤ s.pmm.bitmapMaxPage

theorem pagesOf_block {n : ℕ} (h : n ≤ 0x1000) (h0 : 0 < n) : Pmm.pagesOf (n + 0x2000) = 3 := by
  rw [Pmm.pagesOf_eq (by omega)]
  omega

theorem HeapBlock.congr {s' : Machine} {a : ℕ} (h : HeapBlock s a) (hmem : s'.mem a = s.mem a)
    (hused : ∀ f, a ≤ f → f < a + 3 → s'.pmm.Used f)
    (hmax : s'.pmm.bitmapMaxPage = s.pmm.bitmapMaxPage) : HeapBlock s' a where
  size := by rw [hmem]; exact h.size
  signature := by rw [hmem]; exact h.signature
  used := hused
  bound := by rw [hmax]; exact h.bound

/-- Physical memory fits into the direct map, and page 0 is reserved. -/
structure HeapOk (s : Machine) : Prop where
  direct : s.pmm.bitmapMaxPage ≤ 2 ^ 35
  reserved : 0 < s.pmm.bitmapMaxPage ∧ s.pmm.Used 0

theorem HeapOk.of_reserved {s' : Machine} {a n : ℕ} (hs : HeapOk s) (hr : Reserved s a n s') :
    HeapOk s' :=
  have hmax := hr.alloc.maxPage
  ⟨hmax ▸ hs.direct, hmax ▸ hs.reserved.1, (hr.used 0).2 (Or.inr hs.reserved.2)⟩

/-- **`kcalloc` takes a block of free pages and clears its data.** -/
theorem kcalloc_spec {size : ℕ} (hs : HeapOk s) (h0 : 0 < size) (h : size ≤ 0x1000) :
    EnsuresFree (s.kcalloc size) fun res =>
      ∃ a, res.1 = wordPtr (a + 1) 0 ∧ Reserved s a 3 res.2 ∧ HeapBlock res.2 a ∧
        ∀ i : Fin 512, i.val < size / 8 → res.2.mem (a + 1) i = 0 := by
  have hspec := @pmmAlloc_spec s (size + 0x2000) (Or.inl hs.reserved)
  rw [pagesOf_block h h0] at hspec
  rw [kcalloc, kmalloc, bind_assoc]
  refine (hspec.mono_allow fun _ he => he.1).bind ?_
  rintro ⟨-, _, p⟩ ⟨a, rfl, rfl, halloc⟩
  have hbound : a + 3 ≤ 2 ^ 35 := halloc.lowest.1.1.trans hs.direct
  have hf : a < 2 ^ 35 := by omega
  have hf1 : a + 1 < 2 ^ 35 := by omega
  have hptr : getHigherHalf (a * 0x1000) = wordPtr a 0 := by
    rw [wordPtr, Nat.mul_zero, Nat.add_zero]
  have hptr2 : (wordPtr a 0 + 0x1000) % 2 ^ 64 = wordPtr (a + 1) 0 := by
    rw [wordPtr_eq hf, wordPtr_eq hf1, normalVmaOffset]
    omega
  change ∃ b, _ ∧ _
  rw [hptr, hptr2, wordPtr_add 1]
  have hdata : ∀ f i, f ≠ a + 1 → ¬ InWords (wordPtr (a + 1) 0) (size / 8) f i := by
    intro f i hne
    rw [inWords_wordPtr hf1 (by omega)]
    exact fun hin => hne hin.1
  refine ⟨a, rfl, ⟨halloc, fun f hout => ?_⟩, ⟨⟨size, h, ?_, h0⟩, ?_, ?_, ?_⟩, ?_⟩
  · funext i
    change ite _ _ _ = _
    rw [if_neg (hdata f i (by omega)), mem_writeWord_of_ne hf (by decide) _ (by omega),
      mem_writeWord_of_ne hf (by decide) _ (by omega)]
  · change ite _ _ _ = _
    rw [if_neg (hdata a 0 (by omega)), mem_writeWord hf (by decide),
      if_neg (fun h => absurd h.2 (by decide)), mem_writeWord hf (by decide), if_pos ⟨rfl, rfl⟩]
  · change ite _ _ _ = _
    rw [if_neg (hdata a 1 (by omega)), mem_writeWord hf (by decide), if_pos ⟨rfl, rfl⟩]
  · exact fun f h1 h2 => (halloc.used f).2 (Or.inl ⟨h1, h2⟩)
  · exact halloc.maxPage.symm ▸ halloc.lowest.1.1
  · intro i hi
    exact if_pos ((inWords_wordPtr hf1 (by omega)).2 ⟨rfl, hi⟩)

/-- **`kfree` returns the pages of a block.** -/
theorem kfree_spec {a : ℕ} (hs : HeapOk s) (h : HeapBlock s a) :
    ∃ s', s.kfree (wordPtr (a + 1) 0) = .ok s' ∧ s'.mem = s.mem ∧
      s'.pmm.bitmapMaxPage = s.pmm.bitmapMaxPage ∧
      ∀ f, s'.pmm.Used f ↔ ¬ (a ≤ f ∧ f < a + 3) ∧ s.pmm.Used f := by
  obtain ⟨n, hn, hsize, hpos⟩ := h.size
  have hbound : a + 3 ≤ 2 ^ 35 := h.bound.trans hs.direct
  have hf : a < 2 ^ 35 := by omega
  have hf1 : a + 1 < 2 ^ 35 := by omega
  have halign : wordPtr (a + 1) 0 % 0x1000 = 0 := by
    rw [wordPtr_eq hf1, normalVmaOffset]
    omega
  have hhead : wordPtr (a + 1) 0 - 0x1000 = wordPtr a 0 := by
    rw [wordPtr_eq hf, wordPtr_eq hf1]
    omega
  have hlow : getLowerHalf (wordPtr a 0) = a * 0x1000 := by
    rw [wordPtr_eq hf, getLowerHalf, normalVmaOffset]
    omega
  have hmax := h.bound
  obtain ⟨p', hp', hmax', hused, -⟩ := @Pmm.pmmUnalloc_eq s.pmm a (n + 0x2000) (by omega)
    (by rw [pagesOf_block hn hpos]; exact h.bound)
  rw [pagesOf_block hn hpos] at hused
  refine ⟨{ s with pmm := p' }, ?_, rfl, hmax', hused⟩
  have hsig : s.readWord (wordPtr a 0 + 8) = mallocSignature := by
    rw [wordPtr_add 1, readWord_wordPtr hf (by decide)]
    exact h.signature
  have hread : s.readWord (wordPtr a 0) = n + 0x2000 := by
    rw [readWord_wordPtr hf (by decide)]
    exact hsize
  unfold kfree
  rw [if_neg (not_not.2 halign), tableFrame_wordPtr hf1 (by decide), if_neg (by omega)]
  dsimp only
  rw [hhead, hsig, hread, hlow, if_neg (not_not.2 rfl), pmmUnalloc, hp']
  rfl

end Machine

end DripOS
