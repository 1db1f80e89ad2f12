import DripOS.Proc.Mmap

/-!
# A failed `mmap`

When a page of the range is mapped already, `psuedo_mmap` undoes the mappings it made and gives the
block of frames back.  `RolledBack` : everything is as before, except for tables that were added.

Both branches advance `phys` before they look at the error, and subtract the number of pages that
were mapped: the block that is freed starts one frame too late.  So the first frame of the block
stays in use (`psuedoMmap_not_rolledBack`), and the frame behind the block is freed.
-/

namespace DripOS

namespace Pmm

variable {p : Pmm} {pages a : ℕ}

/-- The loop of `find_free_page`; a run that starts with page 0 counts from page 1 on. -/
theorem findFreePageLoop_first :
    ∀ fuel i found first, i + fuel = p.bitmapMaxPage → found < pages →
      (found = 0 ∧ first = 0 ∨
        0 < found ∧ ¬ p.Used first ∧ (first + found = i ∧ (first = 0 → found = 1) ∨
          first = 1 ∧ found = i)) →
      p.findFreePageLoop pages fuel i found first = some a →
      ¬ p.Used a ∧ (a + pages ≤ p.bitmapMaxPage ∨ a = 1 ∧ pages ≤ p.bitmapMaxPage) := by
  intro fuel
  induction fuel with
  | zero =>
    intro i found first _ _ _ h
    cases h
  | succ fuel ih =>
    intro i found first hi hlt hinv h
    rw [findFreePageLoop] at h
    by_cases hu : p.Used i
    · -- a used page ends the run
      have hb : p.pmmGetBit i = true := hu
      simp only [hb, Bool.not_true, Bool.false_eq_true, if_false] at h
      rw [if_neg (by omega)] at h
      exact ih (i + 1) 0 0 (by omega) (by omega) (Or.inl ⟨rfl, rfl⟩) h
    · have hb : p.pmmGetBit i = false := pmmGetBit_eq_false.2 hu
      simp only [hb, Bool.not_false, if_true] at h
      obtain ⟨first', hfirst⟩ : ∃ first', (if first = 0 then i else first) = first' := ⟨_, rfl⟩
      have hnew : ¬ p.Used first' ∧ (first' + (found + 1) = i + 1 ∧
          (first' = 0 → found + 1 = 1) ∨ first' = 1 ∧ found + 1 = i + 1) := by
        rw [← hfirst]
        split_ifs with hz
        · exact ⟨hu, by omega⟩
        · exact ⟨(hinv.resolve_left fun h => hz h.2).2.1, by omega⟩
      rw [hfirst] at h
      split_ifs at h with hf
      · cases h
        exact ⟨hnew.1, by omega⟩
      · exact ih (i + 1) (found + 1) first' (by omega) (by omega) (Or.inr ⟨by omega, hnew⟩) h

/-- The block that `pmm_alloc` returns starts with a free page. -/
theorem findFreePage_first (hpos : 0 < pages) (h : p.findFreePage pages = some a) :
    ¬ p.Used a ∧ (a + pages ≤ p.bitmapMaxPage ∨ a = 1 ∧ pages ≤ p.bitmapMaxPage) :=
  findFreePageLoop_first p.bitmapMaxPage 0 0 0 (Nat.zero_add _) hpos (Or.inl ⟨rfl, rfl⟩) h

end Pmm

namespace Machine

open TableTree

variable {s s' : Machine} {r n a va : ℕ}

/-! ### Frames that are cleared -/

/-- Clearing frames takes tables away, and adds none. -/
theorem pageWalk_of_cleared (h : ∀ f, s'.mem f = s.mem f ∨ s'.mem f = fun _ => 0)
    {π : List (Fin 512)} {t : ℕ} (hπ : pageWalk s'.mem r π = some t) :
    pageWalk s.mem r π = some t := by
  induction π generalizing t with
  | nil => exact hπ
  | cons i π ih =>
    obtain ⟨t', ht', hc⟩ := walk_cons_eq_some.1 hπ
    refine walk_cons_eq_some.2 ⟨t', ih ht', ?_⟩
    rcases h t' with hm | hm
    · rwa [hm] at hc
    · rw [hm, pageChild_eq_none_of_not_present not_present_zero] at hc
      cases hc

theorem wellFormed_of_cleared (hs : WellFormed s r)
    (h : ∀ f, s'.mem f = s.mem f ∨ s'.mem f = fun _ => 0)
    (hu : ∀ f, s.pmm.Used f → s'.pmm.Used f) : WellFormed s' r where
  root_lt := hs.root_lt
  distinct π π' t ht ht' :=
    hs.distinct π π' t (pageWalk_of_cleared h ht) (pageWalk_of_cleared h ht')
  used π t ht := hu t (hs.used π t (pageWalk_of_cleared h ht))
  regular v := by
    refine ⟨fun t ht hp => ?_, fun t ht hp hh => ?_⟩
    · rcases h t with hm | hm
      · rw [hm] at hp ⊢
        exact (hs.regular v).noGiant t (pageWalk_of_cleared h ht) hp
      · rw [hm] at hp
        exact absurd hp not_present_zero
    · rcases h t with hm | hm
      · rw [hm] at hp hh ⊢
        exact (hs.regular v).aligned t (pageWalk_of_cleared h ht) hp hh
      · rw [hm] at hp
        exact absurd hp not_present_zero

/-! ### The block -/

/-- The block that `psuedo_mmap` works with, for any bitmap. -/
structure Block (s : Machine) (a n : ℕ) (s' : Machine) : Prop where
  pos : 0 < n
  free : ¬ s.pmm.Used a
  le : a + n ≤ 2 ^ 52
  used : ∀ f, s'.pmm.Used f ↔ (a ≤ f ∧ f < a + n) ∨ s.pmm.Used f
  cleared : ∀ f, s'.mem f = s.mem f ∨ s'.mem f = fun _ => 0

theorem block_of_pmmAlloc {phys : ℕ} {s1 : Machine} (hpos : 0 < n) (hn : n < 2 ^ 52)
    (h : s.pmmAlloc (n * 0x1000) = .ok (phys, s1)) :
    ∃ a, phys = a * 0x1000 % 2 ^ 64 ∧ Block s a n (s1.clearFrames phys n) := by
  obtain ⟨⟨addr, p⟩, hp, he⟩ := map_eq_ok.1 h
  obtain ⟨rfl, rfl⟩ := Prod.mk.inj he
  unfold Pmm.pmmAlloc at hp
  dsimp only at hp
  rw [Pmm.pagesOf_mul hn] at hp
  cases hf : s.pmm.findFreePage n with
  | none =>
    rw [hf] at hp
    cases hp
  | some a =>
    rw [hf] at hp
    obtain ⟨haddr, hp⟩ := Prod.mk.inj (Except.ok.inj hp)
    obtain ⟨hfree, hle⟩ := Pmm.findFreePage_first hpos hf
    have hmax := s.pmm.maxPage_le
    refine ⟨a, haddr.symm, hpos, hfree, by omega, fun f => ?_, fun f => ?_⟩
    · rw [← hp]
      exact Pmm.used_markUsed
    · by_cases hin : addr / 0x1000 ≤ f ∧ f < addr / 0x1000 + n
      · exact Or.inr (if_pos hin)
      · exact Or.inl (if_neg hin)

/-! ### The result of a failed call -/

/-- Everything is as before the call, except for tables that were added. -/
structure RolledBack (r : ℕ) (p : Process) (s : Machine) (res : MmapResult) : Prop where
  translate : ∀ v, DripOS.translate res.machine.mem r v = DripOS.translate s.mem r v
  process : res.process = some p
  used : ∀ f, (IsPageTable res.machine.mem r f → IsPageTable s.mem r f) →
    (res.machine.pmm.Used f ↔ s.pmm.Used f)
  counters : Pmm.Balanced s.pmm res.machine.pmm

/-- A call that fails has given back the block after its first frame. -/
theorem psuedoMmap_failed {p : Process} {base len : ℕ} {res : MmapResult} (hs : WellFormed s r)
    (hp : p.cr3 = r * 0x1000) (hres : s.psuedoMmap (some p) base len = .ok res)
    (hfail : res.rdx = some .enomem) :
    ∃ a s1 s2, Block s a (Pmm.pagesOf len) s1 ∧
      Restored r (mmapBase p base) (Pmm.pagesOf len) s1 s2 ∧
      s2.pmmUnalloc ((a + 1) % 2 ^ 52 * 0x1000) (Pmm.pagesOf len * 0x1000) = .ok res.machine := by
  obtain ⟨phys, s0, ok, halloc, hx, ⟨-, -, hnone⟩ | ⟨rfl, -, -⟩⟩ := psuedoMmap_ok hres
  · cases hnone.symm.trans hfail
  rw [hp] at hx
  -- an empty range does not fail
  have hpos : 0 < Pmm.pagesOf len := by
    by_contra hzero
    rw [Nat.eq_zero_of_not_pos hzero] at hx
    cases hx
  obtain ⟨a, rfl, hblock⟩ := block_of_pmmAlloc hpos (Pmm.pagesOf_lt len) halloc
  have hw := wellFormed_of_cleared hs hblock.cleared fun f hf => (hblock.used f).2 (Or.inr hf)
  rcases mmapRange_spec hw.toTreeOk hw.regular hblock.le hx with ⟨htrue, -⟩ | ⟨-, -, s2, hrest, hun⟩
  · cases htrue
  · exact ⟨a, _, s2, hblock, hrest, hun⟩

/-- **No failed `mmap` is rolled back**: the first frame of its block stays in use. -/
theorem psuedoMmap_not_rolledBack {p : Process} {base len : ℕ} {res : MmapResult}
    (hs : WellFormed s r) (hp : p.cr3 = r * 0x1000)
    (hres : s.psuedoMmap (some p) base len = .ok res) (hfail : res.rdx = some .enomem) :
    ¬ RolledBack r p s res := by
  intro hback
  obtain ⟨a, s1, s2, hblock, hrest, hun⟩ := psuedoMmap_failed hs hp hres hfail
  have hn := Pmm.pagesOf_lt len
  obtain ⟨hmem, -, hused⟩ := pmmUnalloc_ok (Nat.mod_lt _ (by decide)) hun
  rw [Pmm.pagesOf_mul hn] at hused
  have hpos := hblock.pos
  -- the frame was marked by the call, and is not among those that are freed
  have hkept : res.machine.pmm.Used a :=
    (hused a).2 ⟨by omega, hrest.touch.used_of_used ((hblock.used a).2 (Or.inl ⟨le_rfl, by omega⟩))⟩
  -- it is no table either
  have hno : ¬ IsPageTable res.machine.mem r a := by
    rw [hmem]
    rintro ⟨π, hπ⟩
    rcases hrest.touch.fresh π a hπ with hold | ⟨hfree, -⟩
    · exact hblock.free (hs.used π a (pageWalk_of_cleared hblock.cleared hold))
    · exact hfree ((hblock.used a).2 (Or.inl ⟨le_rfl, by omega⟩))
  exact hblock.free ((hback.used a fun h => absurd h hno).1 hkept)

/-- A page that is mapped already. -/
theorem psuedoMmap_not_rolledBack_onePage :
    ∃ res, (onePage 0xff).psuedoMmap (some ⟨0x1000, 0, 0, 0⟩) 0x7ffffffff000 0x1000 = .ok res ∧
      ¬ RolledBack 1 ⟨0x1000, 0, 0, 0⟩ (onePage 0xff) res := by
  refine exists_ok_and MmapResult.rdx (some .enomem) (by decide +kernel) fun res hres h => ?_
  exact psuedoMmap_not_rolledBack userSpace_onePage.toWellFormed rfl hres h

/-- With frame 9 in use: the call takes frame 8, fails, keeps frame 8 and frees frame 9. -/
theorem psuedoMmap_frees_next :
    ∃ res, frameNineUsed.psuedoMmap (some ⟨0x1000, 0, 0, 0⟩) 0x7ffffffff000 0x1000 = .ok res ∧
      res.rdx = some .enomem ∧ ¬ frameNineUsed.pmm.Used 8 ∧ res.machine.pmm.Used 8 ∧
      frameNineUsed.pmm.Used 9 ∧ ¬ res.machine.pmm.Used 9 := by
  refine exists_ok_and
    (fun res => (res.rdx, decide (res.machine.pmm.Used 8), decide (res.machine.pmm.Used 9)))
    (some .enomem, true, false) (by decide +kernel) fun res _ h => ?_
  obtain ⟨hrdx, h⟩ := Prod.mk.inj h
  obtain ⟨h8, h9⟩ := Prod.mk.inj h
  exact ⟨hrdx, by decide, of_decide_eq_true h8, by decide, of_decide_eq_false h9⟩

end Machine

end DripOS
