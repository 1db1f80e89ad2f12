import DripOS.Mm.Pmm
import Mathlib.Order.CompletePartialOrder

/-!
# Histories of the physical memory manager

A *history* is a sequence of `pmm_alloc` calls and of `pmm_unalloc` calls on live blocks, starting
from a bitmap in which page `0` is in use (as `pmm_memory_setup` leaves it).  Its state is the
manager with its live blocks, each an address and a size.

* `Pmm.HistoryInv` : the live blocks are disjoint, and a page is marked exactly when it was marked
  at the start or belongs to a live block;
* `Pmm.Step.inv`, `Pmm.history_inv` : one call, and every history, keeps the invariant;
* `Pmm.alloc_lowest_of_history` : every call in a history takes the lowest run;
* `Pmm.Ledger`, `Pmm.ledger_of_history` : the counters and the marked pages move with the pages of
  the live blocks.
-/

namespace DripOS

open List

namespace Pmm

/-- A block: its address and the size it was allocated with. -/
abbrev Block := ℕ × ℕ

/-- The pages of a block. -/
def blockPages (b : Block) : Set ℕ := {q | b.1 / 0x1000 ≤ q ∧ q < b.1 / 0x1000 + pagesOf b.2}

variable {size : ℕ} {s s' : Pmm × List Block} {b : Block} {live : List Block} {p : Pmm}

theorem mem_blockPages {page q : ℕ} :
    q ∈ blockPages (page * 0x1000, size) ↔ page ≤ q ∧ q < page + pagesOf size := by
  simp [blockPages]

/-- One call of the manager, with the live blocks before and after. -/
inductive Step : Pmm × List Block → Pmm × List Block → Prop
  | alloc {p p' : Pmm} {live : List Block} {addr size : ℕ} (hsize : size + 4095 < 2 ^ 64)
      (h : p.pmmAlloc size = .ok (addr, p')) : Step (p, live) (p', (addr, size) :: live)
  | unalloc {p p' : Pmm} {live : List Block} {addr size : ℕ} (hlive : (addr, size) ∈ live)
      (h : p.pmmUnalloc addr size = .ok p') : Step (p, live) (p', live.erase (addr, size))

/-- The states of the histories that start in `p₀` with no live block. -/
def History (p₀ : Pmm) : Pmm × List Block → Prop := Relation.ReflTransGen Step (p₀, [])

/-- The invariant of a history that starts in `p₀`. -/
structure HistoryInv (p₀ : Pmm) (s : Pmm × List Block) : Prop where
  maxPage : s.1.bitmapMaxPage = p₀.bitmapMaxPage
  addr : ∀ b ∈ s.2, ∃ page, b.1 = page * 0x1000 ∧ page < 2 ^ 52 ∧
    page + pagesOf b.2 ≤ p₀.bitmapMaxPage
  disjoint : s.2.Pairwise fun b b' => Disjoint (blockPages b) (blockPages b')
  free : ∀ b ∈ s.2, ∀ q ∈ blockPages b, ¬ p₀.Used q
  used : ∀ q, s.1.Used q ↔ p₀.Used q ∨ ∃ b ∈ s.2, q ∈ blockPages b

variable {p₀ : Pmm}

theorem HistoryInv.init (p₀ : Pmm) : HistoryInv p₀ (p₀, []) where
  maxPage := rfl
  addr := by simp
  disjoint := List.Pairwise.nil
  free := by simp
  used := by simp

/-- Page `0` stays in use, so that the search is exact along the history. -/
theorem HistoryInv.page_zero (hi : HistoryInv p₀ s) (h₀ : p₀.ZeroUsed) :
    0 < s.1.bitmapMaxPage ∧ s.1.Used 0 :=
  ⟨hi.maxPage ▸ h₀.1, (hi.used 0).2 (Or.inl h₀.2)⟩

theorem HistoryInv.alloc {p p' : Pmm} {live : List Block} {page size : ℕ}
    (hi : HistoryInv p₀ (p, live)) (ha : Allocated p (pagesOf size) page p') :
    HistoryInv p₀ (p', (page * 0x1000, size) :: live) where
  maxPage := ha.maxPage.trans hi.maxPage
  addr := by
    intro b hb
    rcases mem_cons.1 hb with rfl | hb
    · exact ⟨page, rfl, ha.lowest.lt_two_pow, hi.maxPage ▸ ha.lowest.1.1⟩
    · exact hi.addr b hb
  disjoint := by
    refine List.Pairwise.cons (fun b hb => ?_) hi.disjoint
    rw [Set.disjoint_left]
    intro q hq hqb
    rw [mem_blockPages] at hq
    -- the run was free, the pages of a live block are in use
    exact ha.lowest.1.2 q hq.1 hq.2 ((hi.used q).2 (Or.inr ⟨b, hb, hqb⟩))
  free := by
    intro b hb q hq
    rcases mem_cons.1 hb with rfl | hb
    · rw [mem_blockPages] at hq
      exact fun hu => ha.lowest.1.2 q hq.1 hq.2 ((hi.used q).2 (Or.inl hu))
    · exact hi.free b hb q hq
  used := by
    intro q
    simp only [ha.used q, hi.used q, mem_cons, exists_eq_or_imp, mem_blockPages]
    tauto

theorem HistoryInv.unalloc {p p' : Pmm} {live : List Block} {page size : ℕ}
    (hi : HistoryInv p₀ (p, live)) (hlive : (page * 0x1000, size) ∈ live)
    (hmax : p'.bitmapMaxPage = p.bitmapMaxPage)
    (hused : ∀ f, p'.Used f ↔ ¬ (page ≤ f ∧ f < page + pagesOf size) ∧ p.Used f) :
    HistoryInv p₀ (p', live.erase (page * 0x1000, size)) where
  maxPage := hmax.trans hi.maxPage
  addr := fun b hb => hi.addr b (mem_of_mem_erase hb)
  disjoint := hi.disjoint.sublist erase_sublist
  free := fun b hb => hi.free b (mem_of_mem_erase hb)
  used := by
    have hperm := perm_cons_erase hlive
    have hd : ((page * 0x1000, size) :: live.erase (page * 0x1000, size)).Pairwise
        fun b b' => Disjoint (blockPages b) (blockPages b') :=
      (hperm.pairwise_iff fun h => h.symm).1 hi.disjoint
    rw [pairwise_cons] at hd
    intro q
    rw [hused q, hi.used q, ← mem_blockPages]
    constructor
    · rintro ⟨hn, hu | ⟨b, hb, hq⟩⟩
      · exact Or.inl hu
      · rcases mem_cons.1 (hperm.mem_iff.1 hb) with rfl | hb
        · exact absurd hq hn
        · exact Or.inr ⟨b, hb, hq⟩
    · rintro (hu | ⟨b, hb, hq⟩)
      · exact ⟨fun hq => hi.free _ hlive q hq hu, Or.inl hu⟩
      · exact ⟨fun hq' => Set.disjoint_left.1 (hd.1 b hb) hq' hq,
          Or.inr ⟨b, mem_of_mem_erase hb, hq⟩⟩

theorem HistoryInv.unalloc_ok (hi : HistoryInv p₀ s) (hb : b ∈ s.2) :
    ∃ p', s.1.pmmUnalloc b.1 b.2 = .ok p' ∧ HistoryInv p₀ (p', s.2.erase b) := by
  obtain ⟨addr, size⟩ := b
  obtain ⟨page, rfl, hlt, hle⟩ := hi.addr _ hb
  obtain ⟨p', h, hmax, hused, -⟩ := @pmmUnalloc_eq s.1 page size hlt
    (hi.maxPage ▸ hle)
  exact ⟨p', h, hi.unalloc hb hmax hused⟩

section

variable (h₀ : p₀.ZeroUsed)
include h₀

theorem Step.inv (hi : HistoryInv p₀ s) (hs : Step s s') : HistoryInv p₀ s' := by
  cases hs with
  | @alloc p p' live addr size hsize h =>
    obtain ⟨page, rfl, ha⟩ := (pmmAlloc_spec (Or.inl (hi.page_zero h₀))).of_ok h
    exact hi.alloc ha
  | unalloc hlive h =>
    obtain ⟨p', h', hi'⟩ := hi.unalloc_ok hlive
    cases h.symm.trans h'
    exact hi'

theorem history_inv (h : History p₀ s) : HistoryInv p₀ s := by
  induction h with
  | refl => exact HistoryInv.init p₀
  | tail _ hs ih => exact hs.inv h₀ ih

/-- In a history every `pmm_alloc` returns the lowest run, and halts only when there is none. -/
theorem alloc_lowest_of_history (h : History p₀ s) (hsize : size + 4095 < 2 ^ 64) :
    match s.1.pmmAlloc size with
    | .ok (addr, _) => ∃ page, addr = page * 0x1000 ∧ s.1.LowestRun page ((size + 4095) / 4096)
    | .error _ => ∀ a, ¬ s.1.Run a ((size + 4095) / 4096) := by
  have hspec := @pmmAlloc_spec s.1 size (Or.inl ((history_inv h₀ h).page_zero h₀))
  rw [← pagesOf_eq hsize]
  cases hr : s.1.pmmAlloc size with
  | ok r =>
    rw [hr] at hspec
    obtain ⟨page, hpage, ha⟩ := hspec
    exact ⟨page, hpage, ha.lowest⟩
  | error e =>
    rw [hr] at hspec
    exact hspec.2

end

/-- **Histories of the manager.**  From a bitmap with page `0` in use: the live blocks are disjoint
and were free at the start, exactly their pages and those used at the start are marked, every
`pmm_alloc` takes the lowest run that is long enough and halts only when there is none, and every
live block can be freed. -/
theorem history_correct {s : Pmm × List Block} (h₀ : 0 < p₀.bitmapMaxPage ∧ p₀.Used 0)
    (h : History p₀ s) :
    s.2.Pairwise (fun b b' => Disjoint (blockPages b) (blockPages b')) ∧
    (∀ b ∈ s.2, ∀ q ∈ blockPages b, ¬ p₀.Used q) ∧
    (∀ q, s.1.Used q ↔ p₀.Used q ∨ ∃ b ∈ s.2, q ∈ blockPages b) ∧
    (∀ size, size + 4095 < 2 ^ 64 →
      match s.1.pmmAlloc size with
      | .ok (addr, _) => ∃ page, addr = page * 0x1000 ∧ s.1.LowestRun page ((size + 4095) / 4096)
      | .error _ => ∀ a, ¬ s.1.Run a ((size + 4095) / 4096)) ∧
    (∀ b ∈ s.2, ∃ p', s.1.pmmUnalloc b.1 b.2 = .ok p') := by
  have hi := history_inv h₀ h
  refine ⟨hi.disjoint, hi.free, hi.used, fun size hsize => alloc_lowest_of_history h₀ h hsize,
    fun b hb => ?_⟩
  obtain ⟨p', hp', -⟩ := hi.unalloc_ok hb
  exact ⟨p', hp'⟩

/-- A manager of 16 pages with only page `0` in use. -/
def sixteenPages : Pmm where
  bitmap := fun k => if k = 0 then 1#8 else 0#8
  bitmapMaxPage := 16
  usedMemory := 0
  availableMemory := 15 * 0x1000
  maxPage_le := by decide

/-- After two allocations and a release, one block is live and the other pages can be given out
again. -/
theorem history_correct_sixteenPages : ∃ s, History sixteenPages s ∧ s.2 = [(0x3000, 1)] ∧
    (∀ q, s.1.Used q ↔ sixteenPages.Used q ∨ ∃ b ∈ s.2, q ∈ blockPages b) ∧
    (match s.1.pmmAlloc 0x2000 with
      | .ok (addr, _) => ∃ page, addr = page * 0x1000 ∧ s.1.LowestRun page ((0x2000 + 4095) / 4096)
      | .error _ => ∀ a, ¬ s.1.Run a ((0x2000 + 4095) / 4096)) := by
  have hist : History sixteenPages (_, [(0x3000, 1)]) :=
    .tail (.tail (.tail .refl (@Step.alloc _ _ _ _ 0x1001 (by decide) rfl))
      (@Step.alloc _ _ _ _ 1 (by decide) rfl))
      (@Step.unalloc _ _ _ 0x1000 0x1001 (by decide) rfl)
  have h := history_correct (show sixteenPages.ZeroUsed by decide)
    hist
  exact ⟨_, hist, rfl, h.2.2.1, h.2.2.2.1 0x2000 (by decide)⟩

/-! ### The counters along a history -/

/-- Number of pages of the live blocks. -/
def livePages (live : List Block) : ℕ := (live.map fun b => (b.2 + 4095) / 4096).sum

@[simp] theorem livePages_cons (b : Block) (live : List Block) :
    livePages (b :: live) = (b.2 + 4095) / 4096 + livePages live := by
  simp [livePages]

theorem livePages_erase (hb : b ∈ live) :
    (b.2 + 4095) / 4096 + livePages (live.erase b) = livePages live := by
  rw [← livePages_cons]
  exact ((perm_cons_erase hb).map _).sum_eq.symm

/-- The counters and the number of marked pages after a history that starts in `p₀`. -/
structure Ledger (p₀ : Pmm) (s : Pmm × List Block) : Prop where
  inv : HistoryInv p₀ s
  sizes : ∀ b ∈ s.2, b.2 + 4095 < 2 ^ 64
  balanced : Balanced p₀ s.1
  count : s.1.bitmap.count s.1.bitmapMaxPage = p₀.bitmap.count p₀.bitmapMaxPage + livePages s.2

theorem Ledger.init (p₀ : Pmm) : Ledger p₀ (p₀, []) where
  inv := HistoryInv.init p₀
  sizes := by simp
  balanced := Balanced.refl p₀
  count := rfl

theorem Ledger.alloc {p p' : Pmm} {live : List Block} {page size : ℕ} (hl : Ledger p₀ (p, live))
    (hsize : size + 4095 < 2 ^ 64) (ha : Allocated p (pagesOf size) page p') :
    Ledger p₀ (p', (page * 0x1000, size) :: live) where
  inv := hl.inv.alloc ha
  sizes := forall_mem_cons.2 ⟨hsize, hl.sizes⟩
  balanced := hl.balanced.trans ha.balanced
  count := by
    have hcount := hl.count
    rw [ha.count, pagesOf_eq hsize, livePages_cons]
    dsimp only at hcount ⊢
    omega

theorem Ledger.unalloc {p p' : Pmm} {live : List Block} {addr size : ℕ}
    (hl : Ledger p₀ (p, live)) (hlive : (addr, size) ∈ live)
    (h : p.pmmUnalloc addr size = .ok p') : Ledger p₀ (p', live.erase (addr, size)) := by
  obtain ⟨page, rfl, hlt, hle⟩ := hl.inv.addr _ hlive
  have hsize := hl.sizes _ hlive
  rw [← hl.inv.maxPage] at hle
  obtain ⟨p1, h₁, hmax, hused, hbalanced⟩ := @pmmUnalloc_eq p page size hlt hle
  cases h.symm.trans h₁
  have hmarked : ∀ f, page ≤ f → f < page + pagesOf size → p.Used f := fun f h1 h2 =>
    (hl.inv.used f).2 (Or.inr ⟨_, hlive, mem_blockPages.2 ⟨h1, h2⟩⟩)
  refine ⟨hl.inv.unalloc hlive hmax hused, fun b hb => hl.sizes b (mem_of_mem_erase hb),
    hl.balanced.trans (hbalanced hmarked), ?_⟩
  have hcount : p'.bitmap.count p.bitmapMaxPage + pagesOf size =
      p.bitmap.count p.bitmapMaxPage := by
    rw [← Bitmap.count_clearBits hle hmarked]
    congr 1
    exact Bitmap.count_congr fun q _ => Bool.eq_iff_iff.2 ((hused q).trans used_markFree.symm)
  have hbefore := hl.count
  have herase := livePages_erase hlive
  rw [pagesOf_eq hsize] at hcount
  dsimp only at hbefore herase ⊢
  rw [hmax]
  omega

theorem Step.ledger (h₀ : p₀.ZeroUsed) (hl : Ledger p₀ s) (hs : Step s s') : Ledger p₀ s' := by
  cases hs with
  | @alloc p p' live addr size hsize h =>
    obtain ⟨page, rfl, ha⟩ := (pmmAlloc_spec (Or.inl (hl.inv.page_zero h₀))).of_ok h
    exact hl.alloc hsize ha
  | unalloc hlive h => exact hl.unalloc hlive h

theorem ledger_of_history (h₀ : p₀.ZeroUsed) (h : History p₀ s) : Ledger p₀ s := by
  induction h with
  | refl => exact Ledger.init p₀
  | tail _ hs ih => exact hs.ledger h₀ ih

/-- When every block was given back, the manager is as it was. -/
theorem Ledger.eq (hl : Ledger p₀ (p, [])) : p = p₀ :=
  (hl.balanced.eq_of_used fun f => by simpa using (hl.inv.used f).symm).symm

/-- With no page to manage every request halts, and nothing happens. -/
theorem history_of_maxPage_zero (h₀ : p₀.bitmapMaxPage = 0) (h : History p₀ s) : s = (p₀, []) := by
  induction h with
  | refl => rfl
  | tail _ hs ih =>
    rw [ih] at hs
    cases hs with
    | alloc _ h => simp [pmmAlloc, findFreePage, h₀, findFreePageLoop] at h
    | unalloc hlive _ => simp at hlive

end Pmm

end DripOS
