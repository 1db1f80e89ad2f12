import DripOS.Lib.Bitmap
import DripOS.Lib.Bits
import DripOS.Lib.Outcome

/-!
# The physical memory manager

`src/mm/pmm.c` hands out physical memory in pages of 4 KiB.  A bitmap has one bit per page, set when
the page is in use; `find_free_page` looks for the first run of clear bits that is long enough,
`pmm_alloc` marks it and `pmm_unalloc` clears it again.

`findFreePage` uses page number `0` both as a result and as the mark for "no run has started".
These do not clash when page `0` is in use, or when a single page is wanted (`findFreePage_spec`);
the allocator then takes the lowest run (`pmmAlloc_spec`).
-/

namespace DripOS

open Bitmap BitVec

/-- Why the kernel stops for good. -/
inductive Halt where
  /-- `find_free_page` found no run and executes `hlt` forever. -/
  | noFreeMemory
  /-- `pmm_unalloc` of memory past the bitmap executes `hlt` forever. -/
  | badFree
  /-- A failed assertion, or a bad access. -/
  | fault
  deriving DecidableEq, Repr

/-- `x` returns a value satisfying `Q`, unless there is no free memory. -/
abbrev EnsuresFree {α : Type} (x : Except Halt α) (Q : α → Prop) : Prop :=
  Ensures (· = Halt.noFreeMemory) x Q

/-- The state of the physical memory manager. -/
structure Pmm where
  /-- One bit per page, set when the page is in use. -/
  bitmap : Bitmap
  /-- Number of pages the bitmap covers. -/
  bitmapMaxPage : ℕ
  /-- Bytes handed out. -/
  usedMemory : BitVec 64
  /-- Bytes left. -/
  availableMemory : BitVec 64
  /-- `pmm_memory_setup` computes the page count from a 64-bit byte length. -/
  maxPage_le : bitmapMaxPage ≤ 2 ^ 52

namespace Pmm

/-- A manager of a few pages with this bitmap, in which `used` pages are handed out. -/
def ofBitmap (pages : UInt16) (used : ℕ) (bitmap : Bitmap) : Pmm where
  bitmap := bitmap
  bitmapMaxPage := pages.toNat
  usedMemory := BitVec.ofNat 64 (used * 0x1000)
  availableMemory := BitVec.ofNat 64 ((pages.toNat - used) * 0x1000)
  maxPage_le := pages.toNat_lt.le.trans (by decide)

variable (p : Pmm)

/-- `pmm_set_bit`. -/
def pmmSetBit (page : ℕ) : Pmm := { p with bitmap := p.bitmap.setBit page }

/-- `pmm_get_bit`. -/
def pmmGetBit (page : ℕ) : Bool := p.bitmap.testBit page

/-- The loop of `find_free_page` at page `i`, with `fuel` pages to go. -/
def findFreePageLoop (pages : ℕ) : (fuel i foundPages firstPage : ℕ) → Option ℕ
  | 0, _, _, _ => none
  | fuel + 1, i, foundPages, firstPage =>
    let (foundPages, firstPage) :=
      if !p.pmmGetBit i then (foundPages + 1, if firstPage = 0 then i else firstPage) else (0, 0)
    if foundPages = pages then some firstPage
    else findFreePageLoop pages fuel (i + 1) foundPages firstPage

/-- `find_free_page`; `none` when it halts. -/
def findFreePage (pages : ℕ) : Option ℕ := p.findFreePageLoop pages p.bitmapMaxPage 0 0 0

/-- Number of pages of a block of `size` bytes, in 64-bit arithmetic. -/
def pagesOf (size : ℕ) : ℕ := (size + 0x1000 - 1) % 2 ^ 64 / 0x1000

/-- Mark `pages` pages from `page` on as used. -/
def markUsed (page pages : ℕ) : Pmm := { p with bitmap := p.bitmap.setBits page pages }

/-- Mark `pages` pages from `page` on as free: the loop of `pmm_unalloc`. -/
def markFree (page pages : ℕ) : Pmm := { p with bitmap := p.bitmap.clearBits page pages }

/-- `pmm_alloc`: the physical address of the block, and the new state. -/
def pmmAlloc (size : ℕ) : Except Halt (ℕ × Pmm) :=
  let pages := pagesOf size
  match p.findFreePage pages with
  | none => .error .noFreeMemory
  | some freePage =>
    .ok (freePage * 0x1000 % 2 ^ 64,
      { p.markUsed freePage pages with
        availableMemory := p.availableMemory - BitVec.ofNat 64 (pages * 0x1000)
        usedMemory := p.usedMemory + BitVec.ofNat 64 (pages * 0x1000) })

/-- `pmm_unalloc`. -/
def pmmUnalloc (addr size : ℕ) : Except Halt Pmm :=
  let page := (addr &&& 0xFFFFFFFFFFFFF000) / 0x1000
  let pages := pagesOf size
  if page + pages > p.bitmapMaxPage then .error .badFree
  else
    .ok { p.markFree page pages with
      availableMemory := p.availableMemory + BitVec.ofNat 64 (pages * 0x1000)
      usedMemory := p.usedMemory - BitVec.ofNat 64 (pages * 0x1000) }

/-! ### Marked pages and runs -/

/-- Page `f` is marked used. -/
def Used (f : ℕ) : Prop := p.pmmGetBit f = true

instance (f : ℕ) : Decidable (p.Used f) := inferInstanceAs (Decidable (_ = _))

/-- Page 0 is never handed out. -/
abbrev ZeroUsed : Prop := 0 < p.bitmapMaxPage ∧ p.Used 0

/-- The `n` pages from `a` on are free pages of the bitmap. -/
def Run (a n : ℕ) : Prop := a + n ≤ p.bitmapMaxPage ∧ ∀ q, a ≤ q → q < a + n → ¬ p.Used q

/-- `a` starts the lowest run of `n` free pages. -/
def LowestRun (a n : ℕ) : Prop := p.Run a n ∧ ∀ a' < a, ¬ p.Run a' n

variable {p} {page f pages : ℕ} {q : Pmm}

theorem LowestRun.lt_two_pow {a n : ℕ} (h : p.LowestRun a n) : a < 2 ^ 52 := by
  have hle := h.1.1
  have hmax := p.maxPage_le
  by_contra hge
  -- an empty run would start at page 0
  exact h.2 0 (by omega) ⟨by omega, fun q h1 h2 => by omega⟩

theorem pmmGetBit_eq_false {q : ℕ} : p.pmmGetBit q = false ↔ ¬ p.Used q := by
  simp [Used]

@[simp] theorem used_pmmSetBit : (p.pmmSetBit page).Used f ↔ f = page ∨ p.Used f := by
  simp [Used, pmmGetBit, pmmSetBit, testBit_setBit]

theorem used_markUsed :
    (p.markUsed page pages).Used f ↔ (page ≤ f ∧ f < page + pages) ∨ p.Used f := by
  simp [Used, pmmGetBit, markUsed, testBit_setBits]

theorem used_markFree :
    (p.markFree page pages).Used f ↔ ¬ (page ≤ f ∧ f < page + pages) ∧ p.Used f := by
  simp only [Used, pmmGetBit, markFree, testBit_clearBits, Bool.and_eq_true,
    Bool.not_eq_true', decide_eq_false_iff_not]

theorem pagesOf_eq {size : ℕ} (h : size + 4095 < 2 ^ 64) : pagesOf size = (size + 4095) / 4096 := by
  unfold pagesOf
  rw [Nat.add_sub_assoc (by decide), Nat.mod_eq_of_lt (by simpa using h)]

theorem pagesOf_lt (size : ℕ) : pagesOf size < 2 ^ 52 := by
  unfold pagesOf
  omega

@[simp] theorem pagesOf_page : pagesOf 0x1000 = 1 := by decide

theorem pagesOf_mul {n : ℕ} (h : n < 2 ^ 52) : pagesOf (n * 0x1000) = n := by
  rw [pagesOf_eq (by omega)]
  omega

/-! ### The search -/

/-- The loop of `find_free_page`.  At page `i`, the `found` pages before `i` are free and the one
before them is not, and no run of the wanted length ends at or before `i`. -/
theorem findFreePageLoop_spec (hp : 0 < pages) (h₀ : p.Used 0 ∨ pages = 1) :
    ∀ fuel i found first, i + fuel = p.bitmapMaxPage → found < pages → found ≤ i →
      (∀ q, i - found ≤ q → q < i → ¬ p.Used q) →
      (found = i ∨ p.Used (i - found - 1)) →
      (first = if found = 0 then 0 else i - found) →
      (∀ a, a + pages ≤ i → ∃ q, a ≤ q ∧ q < a + pages ∧ p.Used q) →
      match p.findFreePageLoop pages fuel i found first with
      | some a => p.LowestRun a pages
      | none => ∀ a, ¬ p.Run a pages := by
  intro fuel
  induction fuel with
  | zero =>
    intro i found first hi _ _ _ _ _ hno
    rintro a ⟨hle, hfree⟩
    obtain ⟨q, h1, h2, hq⟩ := hno a (by omega)
    exact hfree q h1 h2 hq
  | succ fuel ih =>
    intro i found first hi hlt hle hrun hmax hfirst hno
    simp only [findFreePageLoop]
    by_cases hu : p.Used i
    · -- a used page ends the run
      have hb : p.pmmGetBit i = true := hu
      simp only [hb, Bool.not_true, Bool.false_eq_true, ↓reduceIte]
      rw [if_neg (by omega)]
      refine ih (i + 1) 0 0 (by omega) hp (by omega) (fun q h1 h2 => by omega)
        (Or.inr (by simpa using hu)) (by simp) ?_
      intro a ha
      by_cases hai : a + pages ≤ i
      · exact hno a hai
      · exact ⟨i, by omega, by omega, hu⟩
    · have hb : p.pmmGetBit i = false := pmmGetBit_eq_false.2 hu
      have hrun' : ∀ q, i - found ≤ q → q < i + 1 → ¬ p.Used q := by
        intro q h1 h2
        by_cases hq : q = i
        · rw [hq]; exact hu
        · exact hrun q h1 (by omega)
      -- page 0 never starts a run longer than one page
      have hstart : i - found ≠ 0 ∨ pages = 1 := by
        rcases h₀ with h0 | h1
        · exact Or.inl fun hz => hrun' 0 (by omega) (by omega) h0
        · exact Or.inr h1
      have hfirst' : (if first = 0 then i else first) = i - found := by
        rw [hfirst]
        split_ifs <;> omega
      simp only [hb, Bool.not_false, ↓reduceIte, hfirst']
      split_ifs with hf
      · refine ⟨⟨by omega, fun q h1 h2 => hrun' q h1 (by omega)⟩, ?_⟩
        rintro a ha ⟨-, hfree⟩
        obtain ⟨q, h1, h2, hq⟩ := hno a (by omega)
        exact hfree q h1 h2 hq
      · refine ih (i + 1) (found + 1) (i - found) (by omega) (by omega) (by omega)
          (fun q h1 h2 => hrun' q (by omega) h2) ?_ (by simp) ?_
        · rcases hmax with h | h
          · exact Or.inl (by omega)
          · refine Or.inr ?_
            rwa [show i + 1 - (found + 1) - 1 = i - found - 1 by omega]
        · intro a ha
          by_cases hai : a + pages ≤ i
          · exact hno a hai
          · rcases hmax with h | h
            · omega
            · exact ⟨i - found - 1, by omega, by omega, h⟩

/-- **`find_free_page` finds the lowest run** when page `0` is in use, and for a single page. -/
theorem findFreePage_spec {pages : ℕ} (h0 : p.ZeroUsed ∨ pages = 1) :
    match p.findFreePage pages with
    | some a => p.LowestRun a pages
    | none => ∀ a, ¬ p.Run a pages := by
  by_cases hp : 0 < pages
  · exact findFreePageLoop_spec hp (h0.imp_left And.right) _ 0 0 0 (by omega) hp le_rfl
      (fun q h1 h2 => by omega) (Or.inl rfl) (by simp) (fun a ha => by omega)
  · -- the empty run is found at page 0, at the first used page
    obtain rfl : pages = 0 := by omega
    obtain ⟨hmax, hu⟩ := h0.resolve_right (by decide)
    obtain ⟨m, hm⟩ := Nat.exists_eq_succ_of_ne_zero (Nat.ne_of_gt hmax)
    have hb : p.pmmGetBit 0 = true := hu
    have hres : p.findFreePage 0 = some 0 := by
      rw [findFreePage, hm, Nat.succ_eq_add_one, findFreePageLoop]
      simp [hb]
    rw [hres]
    exact ⟨⟨by omega, fun q h1 h2 => by omega⟩, fun a ha => by omega⟩

/-! ### Specifications of the two operations -/

/-- The counters and the number of marked pages of `p` and `q` differ by the same amount. -/
def Balanced (p q : Pmm) : Prop :=
  p.bitmapMaxPage = q.bitmapMaxPage ∧
  p.availableMemory + BitVec.ofNat 64 (p.bitmap.count p.bitmapMaxPage * 0x1000) =
    q.availableMemory + BitVec.ofNat 64 (q.bitmap.count q.bitmapMaxPage * 0x1000) ∧
  p.usedMemory - BitVec.ofNat 64 (p.bitmap.count p.bitmapMaxPage * 0x1000) =
    q.usedMemory - BitVec.ofNat 64 (q.bitmap.count q.bitmapMaxPage * 0x1000)

theorem Balanced.refl (p : Pmm) : Balanced p p := ⟨rfl, rfl, rfl⟩

theorem Balanced.symm {p : Pmm} (h : Balanced p q) : Balanced q p :=
  ⟨h.1.symm, h.2.1.symm, h.2.2.symm⟩

theorem Balanced.trans {p r : Pmm} (h : Balanced p q) (h' : Balanced q r) : Balanced p r :=
  ⟨h.1.trans h'.1, h.2.1.trans h'.2.1, h.2.2.trans h'.2.2⟩

/-- Balanced states with the same bitmap are equal. -/
theorem Balanced.eq_of_used {p : Pmm} (h : Balanced p q) (hu : ∀ f, p.Used f ↔ q.Used f) :
    p = q := by
  have hb : p.bitmap = q.bitmap := ext fun f => Bool.eq_iff_iff.2 (hu f)
  obtain ⟨hm, ha, hus⟩ := h
  cases p; cases q
  simp_all

/-- What `pmm_alloc` does when it returns `addr`: it takes the lowest run. -/
structure Allocated (p : Pmm) (pages page : ℕ) (p' : Pmm) : Prop where
  lowest : p.LowestRun page pages
  used : ∀ f, p'.Used f ↔ (page ≤ f ∧ f < page + pages) ∨ p.Used f
  balanced : Balanced p p'

theorem Allocated.maxPage {p' : Pmm} (h : Allocated p pages page p') :
    p'.bitmapMaxPage = p.bitmapMaxPage := h.balanced.1.symm

/-- The marked pages are those of before and the pages of the block. -/
theorem Allocated.count {p' : Pmm} (h : Allocated p pages page p') :
    p'.bitmap.count p'.bitmapMaxPage = p.bitmap.count p.bitmapMaxPage + pages := by
  rw [h.maxPage, ← count_setBits h.lowest.1.1 fun q h1 h2 =>
    pmmGetBit_eq_false.2 (h.lowest.1.2 q h1 h2)]
  exact count_congr fun q _ => Bool.eq_iff_iff.2 ((h.used q).trans used_markUsed.symm)

theorem Allocated.unique {a b : ℕ} {p1 p2 : Pmm} (h1 : Allocated p pages a p1)
    (h2 : Allocated p pages b p2) : a = b ∧ p1 = p2 := by
  have hab : a = b := by
    refine le_antisymm (not_lt.1 fun hlt => ?_) (not_lt.1 fun hlt => ?_)
    · exact h1.lowest.2 b hlt h2.lowest.1
    · exact h2.lowest.2 a hlt h1.lowest.1
  subst hab
  refine ⟨rfl, (h1.balanced.symm.trans h2.balanced).eq_of_used fun f => ?_⟩
  rw [h1.used, h2.used]

/-- **`pmm_alloc` takes the lowest run of free pages**, and halts only when there is none. -/
theorem pmmAlloc_spec {size : ℕ} (h0 : p.ZeroUsed ∨ pagesOf size = 1) :
    Ensures (fun e => e = .noFreeMemory ∧ ∀ a, ¬ p.Run a (pagesOf size)) (p.pmmAlloc size)
      fun r => ∃ page, r.1 = page * 0x1000 ∧ Allocated p (pagesOf size) page r.2 := by
  have hspec := findFreePage_spec h0
  unfold pmmAlloc
  dsimp only
  cases hf : p.findFreePage (pagesOf size) with
  | none =>
    rw [hf] at hspec
    exact ⟨rfl, hspec⟩
  | some page =>
    rw [hf] at hspec
    obtain ⟨⟨hle, hfree⟩, -⟩ := id hspec
    have hcount := count_setBits (b := p.bitmap) hle fun q h1 h2 =>
      pmmGetBit_eq_false.2 (hfree q h1 h2)
    refine ⟨page, ?_, hspec, fun f => used_markUsed, rfl, ?_, ?_⟩
    · have hpage := hspec.lt_two_pow
      exact Nat.mod_eq_of_lt (by omega)
    · simp only [markUsed]
      bv_omega
    · simp only [markUsed]
      bv_omega

/-- `pmm_unalloc` of pages below the bound clears their bits. -/
theorem pmmUnalloc_eq {page size : ℕ} (hp : page < 2 ^ 52)
    (hle : page + pagesOf size ≤ p.bitmapMaxPage) :
    ∃ p', p.pmmUnalloc (page * 0x1000) size = .ok p' ∧ p'.bitmapMaxPage = p.bitmapMaxPage ∧
      (∀ f, p'.Used f ↔ ¬ (page ≤ f ∧ f < page + pagesOf size) ∧ p.Used f) ∧
      ((∀ f, page ≤ f → f < page + pagesOf size → p.Used f) → Balanced p p') := by
  have hmask : (page * 0x1000 &&& 0xFFFFFFFFFFFFF000) / 0x1000 = page := by
    rw [Bits.and_pageMask]
    omega
  unfold pmmUnalloc
  rw [hmask, if_neg (by omega)]
  refine ⟨_, rfl, rfl, fun f => used_markFree, fun hused => ?_⟩
  have hcount := count_clearBits (b := p.bitmap) hle hused
  refine ⟨rfl, ?_, ?_⟩
  · simp only [markFree]
    bv_omega
  · simp only [markFree]
    bv_omega

/-- `pmm_unalloc` right after the allocation leaves everything as it was. -/
theorem Allocated.unalloc {page size : ℕ} {p' : Pmm} (h : Allocated p (pagesOf size) page p') :
    p'.pmmUnalloc (page * 0x1000) size = .ok p := by
  have hle : page + pagesOf size ≤ p'.bitmapMaxPage := h.maxPage ▸ h.lowest.1.1
  obtain ⟨q, hq, -, hused, hbal⟩ := pmmUnalloc_eq h.lowest.lt_two_pow hle
  have hb : Balanced p q := h.balanced.trans (hbal fun f h1 h2 => (h.used f).2 (.inl ⟨h1, h2⟩))
  rw [hq, hb.eq_of_used fun f => ?_]
  rw [hused, h.used]
  refine ⟨fun hf => ⟨fun hin => h.lowest.1.2 f hin.1 hin.2 hf, .inr hf⟩, fun hf => ?_⟩
  exact hf.2.resolve_left hf.1

end Pmm

end DripOS
