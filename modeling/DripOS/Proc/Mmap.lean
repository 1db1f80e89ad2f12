import DripOS.Klibc.Errno
import DripOS.Mm.Fork
import DripOS.Mm.Probe
import DripOS.Proc.Process

/-!
# The system calls `mmap` and `munmap`

`psuedo_mmap` and `munmap` of `src/proc/sched_syscalls.c` walk the pages of a range that a process
of ring 3 chooses.  `psuedo_mmap` never looks at the base address, and `munmap` at the first address
only, while the table walk drops the upper 16 bits of an address.

`Confined` : a call changes no translation of the upper half, and frees no frame that was in use,
except frames of pages of the range in the lower half.  `mmap_munmap_confined` gives the calls for
which this is the case.
-/

namespace DripOS

open Pmm Nat Option

/-- What `psuedo_mmap` leaves behind: the address, the error number in `rdx`, the process and the
machine. -/
structure MmapResult where
  ret : ℕ
  rdx : Option Errno
  process : Option Process
  machine : Machine

namespace Machine

variable (s : Machine)

/-- `memset(GET_HIGHER_HALF(phys), 0, pages * 0x1000)`. -/
def clearFrames (phys pages : ℕ) : Machine :=
  { s with mem := fun f =>
      if phys / 0x1000 ≤ f ∧ f < phys / 0x1000 + pages then fun _ => 0 else s.mem f }

/-- The loop of `psuedo_mmap` that maps the pages from page `i` on.  It stops at the first error,
with the index of that page, and with `phys` past it. -/
def mmapLoop (va p4 : ℕ) : (pages i phys : ℕ) → Machine → Except Halt (Option ℕ × ℕ × Machine)
  | 0, _, phys, s => pure (none, phys, s)
  | pages + 1, i, phys, s => do
    let r ← s.vmmMapPages phys ((va + i * 0x1000) % 2 ^ 64) p4 1
      (vmmWrite ||| vmmUser ||| vmmPresent)
    let phys := (phys + 0x1000) % 2 ^ 64
    if r.1 ≠ 0 then pure (some i, phys, r.2) else mmapLoop va p4 pages (i + 1) phys r.2

/-- Both branches of `psuedo_mmap`, with the block at `phys` allocated: map `len` pages at `va`, and
undo everything when one of them is mapped already. -/
def mmapRange (phys va p4 len : ℕ) : Except Halt (Bool × Machine) := do
  let r ← mmapLoop va p4 len 0 phys s
  match r.1 with
  | none => pure (true, r.2.2)
  | some mapped => do
    let s ← forRange mapped (fun i s => do
      let u ← s.vmmUnmapPages ((va + i * 0x1000) % 2 ^ 64) p4 1
      pure u.2) r.2.2
    let phys := (r.2.1 + 2 ^ 64 - 0x1000 * mapped) % 2 ^ 64
    let s ← s.pmmUnalloc phys (len * 0x1000)
    pure (false, s)

/-- `psuedo_mmap`. -/
def psuedoMmap (process : Option Process) (base len : ℕ) : Except Halt MmapResult :=
  let len := (len + 0x1000 - 1) % 2 ^ 64 / 0x1000
  match process with
  | none => pure ⟨0, some .esrch, none, s⟩
  | some p => do
    let phys ← s.pmmAlloc (len * 0x1000)
    let s := phys.2.clearFrames phys.1 len
    if base ≠ 0 then do
      let r ← s.mmapRange phys.1 base p.cr3 len
      if r.1 then pure ⟨base, none, some p, r.2⟩ else pure ⟨0, some .enomem, some p, r.2⟩
    else do
      let r ← s.mmapRange phys.1 p.currentBrk p.cr3 len
      if r.1 then
        pure ⟨p.currentBrk, none,
          some { p with currentBrk := (p.currentBrk + len * 0x1000) % 2 ^ 64 }, r.2⟩
      else pure ⟨0, some .enomem, some p, r.2⟩

/-- One round of the loop of `munmap`, with `base` the value of `cr3`. -/
def munmapPage (base addr : ℕ) : Except Halt Machine := do
  let phys := s.virtToPhys addr base
  let u ← s.vmmUnmapPages addr base 1
  if phys ≠ notMapped then u.2.pmmUnalloc phys 0x1000 else pure u.2

end Machine

namespace Machine

variable {s s1 : Machine} {r va i a base len phys addr : ℕ} {p : Process} {mem : ℕ → Fin 512 → ℕ}
  {res : MmapResult} {v : PtOff}

/-! ### Single pages of a range -/

theorem pageAt_add (va i j : ℕ) : pageAt ((va + i * 0x1000) % 2 ^ 64) j = pageAt va (i + j) := by
  rw [pageAt, pageAt, vmmVirtToOffs_eq_iff]
  omega

theorem range_one_subset :
    {v | ∃ j < 1, pageAt ((va + i * 0x1000) % 2 ^ 64) j = v} ⊆ {pageAt va i} := by
  rintro v ⟨j, hj, rfl⟩
  rw [lt_one_iff.1 hj, pageAt_add]
  exact rfl

theorem vmmMapPages_one {perms : ℕ} (i : ℕ) (hok : TreeOk s r) (hreg : ∀ v, Regular s.mem r v)
    (hfl : perms < 0x1000) (hp : Present perms) :
    EnsuresFree
      (s.vmmMapPages phys ((va + i * 0x1000) % 2 ^ 64) (r * 0x1000) 1 perms) fun res =>
      Touch r {pageAt va i} s res.2 ∧
      translate res.2.mem r (pageAt va i) =
        some ((translate s.mem r (pageAt va i)).getD (frameAt phys 0, perms)) ∧
      (res.1 = 0 ↔ translate s.mem r (pageAt va i) = none) := by
  refine (vmmMapPages_spec hok (fun j _ => hreg _) (by decide) hfl hp).mono fun res h => ?_
  have hin := h.inside 0 Nat.one_pos
  have hret := h.ret_eq_one_iff
  have hres : res.1 = 0 ∨ res.1 = 1 := h.ret.elim (fun h => Or.inr h.1) fun h => Or.inl h.1
  simp only [lt_one_iff, exists_eq_left, pageAt_add, Nat.add_zero] at hin hret
  refine ⟨h.touch.mono range_one_subset, hin, ?_⟩
  rw [← not_isSome_iff_eq_none, ← hret]
  omega

theorem vmmUnmapPages_one (i : ℕ) (hok : TreeOk s r) (hreg : ∀ v, Regular s.mem r v) :
    EnsuresFree
      (s.vmmUnmapPages ((va + i * 0x1000) % 2 ^ 64) (r * 0x1000) 1) fun res =>
      Touch r {pageAt va i} s res.2 ∧ translate res.2.mem r (pageAt va i) = none := by
  refine (vmmUnmapPages_spec hok (fun j _ => hreg _) (by decide)).mono fun res h => ?_
  have hin := h.inside 0 Nat.one_pos
  rw [pageAt_add] at hin
  exact ⟨h.touch.mono range_one_subset, hin⟩

/-- A page with a table of the last level is unmapped without a new table, so that the bitmap of
the frames plays no part. -/
theorem vmmUnmapPages_inPlace {pmm : Pmm} {ret t : ℕ} (hok : TreeOk ⟨s.mem, pmm⟩ r)
    (hw : pageWalk s.mem r (pageAt va i).tables = some t)
    (hres : s.vmmUnmapPages ((va + i * 0x1000) % 2 ^ 64) (r * 0x1000) 1 = .ok (ret, s1)) :
    s1.pmm = s.pmm ∧ Touch r {pageAt va i} ⟨s.mem, pmm⟩ ⟨s1.mem, pmm⟩ ∧
      translate s1.mem r (pageAt va i) = none := by
  have hpage : vmmVirtToOffs (((va + i * 0x1000) % 2 ^ 64 + 0 * 0x1000) % 2 ^ 64) = pageAt va i :=
    pageAt_add va i 0
  obtain ⟨pt, hget, rfl⟩ := vmmGetTable_of_walk hok.root_lt hw
  unfold vmmUnmapPages at hres
  rw [forRange_succ, forRange_zero, ok_bind] at hres
  unfold vmmUnmapPage at hres
  dsimp only at hres
  rw [hpage, hget, ok_bind] at hres
  split_ifs at hres with hp
  · cases hres
    exact ⟨rfl, touch_setLeaf (s := ⟨s.mem, pmm⟩) hok hw (Or.inr rfl)⟩
  · cases hres
    refine ⟨rfl, Touch.refl hok, ?_⟩
    rw [← not_isSome_iff_eq_none, ← present_entries_iff hw]
    exact hp

/-! ### The loops of `psuedo_mmap` -/

/-- The pages of a range. -/
def rangeOf (va n : ℕ) : Set PtOff := {v | ∃ j < n, pageAt va j = v}

theorem rangeOf_mono {m n : ℕ} (h : m ≤ n) : rangeOf va m ⊆ rangeOf va n :=
  fun _ ⟨j, hj, he⟩ => ⟨j, hj.trans_le h, he⟩

theorem mem_rangeOf {n : ℕ} (h : i < n) : pageAt va i ∈ rangeOf va n := ⟨i, h, rfl⟩

theorem singleton_subset_rangeOf {n : ℕ} (h : i < n) : {pageAt va i} ⊆ rangeOf va n :=
  Set.singleton_subset_iff.2 (mem_rangeOf h)

/-- The first `n` pages from `va` on, unmapped before, are mapped to the frames from `a` on. -/
structure Mapped (r va a n : ℕ) (s s' : Machine) : Prop where
  touch : Touch r (rangeOf va n) s s'
  bound : n ≤ 2 ^ 36
  before : ∀ j < n, translate s.mem r (pageAt va j) = none
  after : ∀ j < n, translate s'.mem r (pageAt va j) =
    some (a + j, vmmWrite ||| vmmUser ||| vmmPresent)

theorem Mapped.succ {n : ℕ} {s' : Machine} (h : Mapped r va a n s s1)
    (ht : Touch r {pageAt va n} s1 s') (hn : translate s1.mem r (pageAt va n) = none)
    (hm : translate s'.mem r (pageAt va n) = some (a + n, vmmWrite ||| vmmUser ||| vmmPresent)) :
    Mapped r va a (n + 1) s s' := by
  -- a page seen before is mapped by now
  have hfresh : pageAt va n ∉ rangeOf va n := by
    rintro ⟨j, hj, he⟩
    rw [← he, h.after j hj] at hn
    cases hn
  have hlt : n < 2 ^ 36 := by
    by_contra hge
    refine hfresh ⟨n - 2 ^ 36, by omega, PtOff.vpn_inj ?_⟩
    rw [vpn_pageAt, vpn_pageAt]
    omega
  refine ⟨(h.touch.mono (rangeOf_mono n.le_succ)).trans
    (ht.mono (singleton_subset_rangeOf n.lt_succ_self)), hlt, ?_, ?_⟩
  · intro j hj
    rcases Nat.lt_succ_iff_lt_or_eq.1 hj with hj | rfl
    · exact h.before j hj
    · rw [← hn, h.touch.translate _ hfresh]
  · intro j hj
    rcases Nat.lt_succ_iff_lt_or_eq.1 hj with hj | rfl
    · rw [ht.translate _ fun he => hfresh ⟨j, hj, he⟩, h.after j hj]
    · exact hm

/-- The page `i` is the first one that was mapped already. -/
structure Blocked (r va a i : ℕ) (s s' : Machine) : Prop where
  mapped : ∃ s₁, Mapped r va a i s s₁ ∧ Touch r {pageAt va i} s₁ s' ∧
    (∀ u, translate s'.mem r u = translate s₁.mem r u) ∧
    (translate s₁.mem r (pageAt va i)).isSome

/-- The loop maps all pages, or stops at a page that is mapped. -/
theorem mmapLoop_spec {n : ℕ} (hreg : ∀ v, Regular s.mem r v) (ha : a + n ≤ 2 ^ 52) :
    ∀ (k i : ℕ) (s1 : Machine), i + k = n → Mapped r va a i s s1 →
      EnsuresFree
        (mmapLoop va (r * 0x1000) k i ((a + i) * 0x1000 % 2 ^ 64) s1) fun res =>
        match res.1 with
        | none => Mapped r va a n s res.2.2
        | some i => i < n ∧ res.2.1 = (a + i + 1) * 0x1000 % 2 ^ 64 ∧
            Blocked r va a i s res.2.2 := by
  intro k
  induction k with
  | zero =>
    intro i s1 hi h
    obtain rfl : i = n := hi
    exact h
  | succ k ih =>
    intro i s1 hi h
    have hnext : ((a + i) * 0x1000 % 2 ^ 64 + 0x1000) % 2 ^ 64 =
        (a + (i + 1)) * 0x1000 % 2 ^ 64 := by omega
    have hframe : frameAt ((a + i) * 0x1000 % 2 ^ 64) 0 = a + i := by
      rw [frameAt]
      omega
    have hreg1 : ∀ v, Regular s1.mem r v := fun v => h.touch.regular (hreg v)
    refine (vmmMapPages_one i h.touch.ok hreg1 (by decide) (by decide)).bind ?_
    rintro ⟨err, s2⟩ ⟨ht, htr, herr⟩
    rw [hnext]
    rw [hframe] at htr
    split_ifs with hz
    · -- the page was mapped, and keeps its frame
      have hsome : (translate s1.mem r (pageAt va i)).isSome := by
        rw [isSome_iff_ne_none]
        exact fun hn => hz (herr.2 hn)
      refine ⟨by omega, rfl, s1, h, ht, fun u => ?_, hsome⟩
      by_cases hu : u = pageAt va i
      · rw [hu, htr]
        obtain ⟨x, hx⟩ := isSome_iff_exists.1 hsome
        rw [hx, getD_some]
      · exact ht.translate u hu
    · have hn := herr.1 (not_not.1 hz)
      rw [hn, getD_none] at htr
      exact ih (i + 1) s2 (by omega) (h.succ ht hn htr)

/-- The translations are as before, and some tables may have been added. -/
structure Restored (r va n : ℕ) (s s' : Machine) : Prop where
  touch : Touch r (rangeOf va n) s s'
  translate : ∀ u, DripOS.translate s'.mem r u = DripOS.translate s.mem r u

theorem unmapLoop_spec {n : ℕ} {s' : Machine} (hreg : ∀ v, Regular s.mem r v) (hi : i < n)
    (h : Blocked r va a i s s') :
    EnsuresFree
      (forRange i (fun i s => do
        let u ← s.vmmUnmapPages ((va + i * 0x1000) % 2 ^ 64) (r * 0x1000) 1
        pure u.2) s') (Restored r va n s) := by
  classical
  obtain ⟨s1, hm, ht, htr, -⟩ := h
  have hstart : Touch r (rangeOf va n) s s' :=
    (hm.touch.mono (rangeOf_mono hi.le)).trans (ht.mono (singleton_subset_rangeOf hi))
  refine (Ensures.forRange (fun k s2 => Touch r (rangeOf va n) s s2 ∧
    ∀ u, translate s2.mem r u = if u ∈ rangeOf va k then none else translate s1.mem r u)
    ⟨hstart, fun u => ?_⟩ ?_).mono fun s2 h2 => ⟨h2.1, fun u => ?_⟩
  · rw [htr, if_neg]
    rintro ⟨j, hj, -⟩
    exact absurd hj (Nat.not_lt_zero j)
  · rintro k s2 hk ⟨ht2, htr2⟩
    refine (vmmUnmapPages_one k ht2.ok fun v => ht2.regular (hreg v)).bind ?_
    rintro ⟨_, s3⟩ ⟨ht3, hnone⟩
    refine ⟨ht2.trans (ht3.mono (singleton_subset_rangeOf (hk.trans hi))), fun u => ?_⟩
    by_cases hu : u = pageAt va k
    · rw [hu, if_pos (mem_rangeOf k.lt_succ_self)]
      exact hnone
    · rw [ht3.translate u hu, htr2]
      refine if_congr ⟨fun h => rangeOf_mono k.le_succ h, ?_⟩ rfl rfl
      rintro ⟨j, hj, rfl⟩
      rcases Nat.lt_succ_iff_lt_or_eq.1 hj with hj | rfl
      · exact mem_rangeOf hj
      · exact absurd rfl hu
  · rw [h2.2]
    split_ifs with hu
    · obtain ⟨j, hj, rfl⟩ := hu
      exact (hm.before j hj).symm
    · exact hm.touch.translate u hu

/-- A page of the range is mapped, or the range wraps around. -/
def MmapFails (s : Machine) (r va n : ℕ) : Prop :=
  2 ^ 36 < n ∨ ∃ i < n, (translate s.mem r (pageAt va i)).isSome

theorem Blocked.mmapFails {n : ℕ} {s' : Machine} (hi : i < n) (h : Blocked r va a i s s') :
    MmapFails s r va n := by
  obtain ⟨s1, hm, -, -, hsome⟩ := h
  by_cases hold : pageAt va i ∈ rangeOf va i
  · obtain ⟨j, hj, he⟩ := hold
    have := congrArg PtOff.vpn he
    rw [vpn_pageAt, vpn_pageAt] at this
    exact Or.inl (by omega)
  · rw [hm.touch.translate _ hold] at hsome
    exact Or.inr ⟨i, hi, hsome⟩

/-- **Both branches of `psuedo_mmap` with a block at frame `a`.**  When the request fails, the pages
past the first one of the block are freed, and the page after the block. -/
theorem mmapRange_spec {n : ℕ} (hok : TreeOk s r) (hreg : ∀ v, Regular s.mem r v)
    (ha : a + n ≤ 2 ^ 52) {res : Bool × Machine}
    (hres : s.mmapRange (a * 0x1000 % 2 ^ 64) va (r * 0x1000) n = .ok res) :
    res.1 = true ∧ Mapped r va a n s res.2 ∨
    res.1 = false ∧ MmapFails s r va n ∧ ∃ s2, Restored r va n s s2 ∧
      s2.pmmUnalloc ((a + 1) % 2 ^ 52 * 0x1000) (n * 0x1000) = .ok res.2 := by
  have hstart : Mapped r va a 0 s s :=
    ⟨Touch.refl hok, by decide, fun j hj => absurd hj j.not_lt_zero, fun j hj =>
      absurd hj j.not_lt_zero⟩
  obtain ⟨⟨o, phys, s1⟩, hloop, hres⟩ := bind_eq_ok.1 hres
  have h := (mmapLoop_spec hreg ha n 0 s (Nat.zero_add n) hstart).of_ok hloop
  cases o with
  | none =>
    cases hres
    exact Or.inl ⟨rfl, h⟩
  | some i =>
    obtain ⟨hi, rfl, hb⟩ := h
    obtain ⟨s2, hun, hres⟩ := bind_eq_ok.1 hres
    obtain ⟨s3, hfree, hres⟩ := bind_eq_ok.1 hres
    cases hres
    refine Or.inr ⟨rfl, hb.mmapFails hi, s2, (unmapLoop_spec hreg hi hb).of_ok hun, ?_⟩
    have hphys : ((a + i + 1) * 0x1000 % 2 ^ 64 + 2 ^ 64 - 0x1000 * i) % 2 ^ 64 =
        (a + 1) % 2 ^ 52 * 0x1000 := by omega
    rw [← hphys]
    exact hfree

/-! ### Allocating and freeing -/

theorem pmmUnalloc_ok {page size : ℕ} {s' : Machine} (hp : page < 2 ^ 52)
    (h : s.pmmUnalloc (page * 0x1000) size = .ok s') :
    s'.mem = s.mem ∧ page + pagesOf size ≤ s.pmm.bitmapMaxPage ∧
    ∀ f, s'.pmm.Used f ↔ ¬ (page ≤ f ∧ f < page + pagesOf size) ∧ s.pmm.Used f := by
  have hle : page + pagesOf size ≤ s.pmm.bitmapMaxPage := by
    by_contra hgt
    have hmask : (page * 0x1000 &&& 0xFFFFFFFFFFFFF000) / 0x1000 = page := by
      rw [Bits.and_pageMask]
      omega
    have herr : s.pmm.pmmUnalloc (page * 0x1000) size = .error .badFree := by
      unfold Pmm.pmmUnalloc
      rw [hmask, if_pos (Nat.not_le.1 hgt)]
    rw [pmmUnalloc, herr] at h
    cases h
  obtain ⟨p', hp', -, hused, -⟩ := pmmUnalloc_eq (p := s.pmm) hp hle
  rw [pmmUnalloc, hp'] at h
  cases h
  exact ⟨rfl, hle, hused⟩

theorem pmmAlloc_reserved {n : ℕ} (h0 : s.pmm.ZeroUsed) (hn : n < 2 ^ 52)
    (h : s.pmmAlloc (n * 0x1000) = .ok (phys, s1)) :
    ∃ a, phys = a * 0x1000 % 2 ^ 64 ∧ Reserved s a n (s1.clearFrames phys n) := by
  obtain ⟨a, rfl, hmem, halloc⟩ := (pmmAlloc_spec (Or.inl h0)).of_ok h
  rw [pagesOf_mul hn] at halloc
  have hlt := halloc.lowest.lt_two_pow
  refine ⟨a, by omega, halloc, fun f hf => ?_⟩
  rw [clearFrames, Nat.mul_div_cancel a (by decide), hmem]
  exact if_neg hf

/-! ### Calls that stay in the lower half -/

/-- A page of the range in the lower half is mapped to the frame `f`. -/
def LowMapped (s : Machine) (r va n f : ℕ) : Prop :=
  ∃ i < n, (pageAt va i).Low ∧ ∃ fl, translate s.mem r (pageAt va i) = some (f, fl)

/-- A call on `n` pages from `va` on changes no translation of the upper half, and of the frames in
use frees only those that pages of the range in the lower half were mapped to. -/
structure Confined (r va n : ℕ) (s s' : Machine) : Prop where
  upper : ∀ v : PtOff, ¬ v.Low → translate s'.mem r v = translate s.mem r v
  freed : ∀ f, s.pmm.Used f → ¬ s'.pmm.Used f → LowMapped s r va n f

theorem Confined.refl (r va n : ℕ) (s : Machine) : Confined r va n s s :=
  ⟨fun _ _ => rfl, fun _ hf hf' => absurd hf hf'⟩

/-- The address space of a process: a well-formed tree; physical page 0 is reserved. -/
structure UserSpace (s : Machine) (r : ℕ) : Prop extends WellFormed s r where
  clean : Clean s.mem r
  reserved : 0 < s.pmm.bitmapMaxPage ∧ s.pmm.Used 0
  notTable : ¬ IsPageTable s.mem r 0

/-- A change of memory outside of the tables keeps an address space. -/
theorem UserSpace.congr {s' : Machine} (h : UserSpace s r)
    (hmem : ∀ t, IsPageTable s.mem r t → s'.mem t = s.mem t) (hpmm : s'.pmm = s.pmm) :
    UserSpace s' r where
  toTreeOk := h.toTreeOk.congr (pageWalk_congr hmem) fun t ⟨π, hπ⟩ => hpmm ▸ h.used π t hπ
  regular v := (h.regular v).congr hmem
  clean π t i ht := by
    rw [pageWalk_congr hmem] at ht
    rw [hmem t ⟨π, ht⟩]
    exact h.clean π t i ht
  reserved := hpmm ▸ h.reserved
  notTable := fun ⟨π, hπ⟩ => h.notTable ⟨π, (pageWalk_congr hmem π).symm.trans hπ⟩

/-- Where `psuedo_mmap` maps to. -/
def mmapBase (p : Process) (base : ℕ) : ℕ := if base ≠ 0 then base else p.currentBrk

/-- Both branches of `psuedo_mmap` run the same loops, at different addresses. -/
theorem psuedoMmap_ok (hres : s.psuedoMmap (some p) base len = .ok res) :
    ∃ phys s0 ok, s.pmmAlloc (pagesOf len * 0x1000) = .ok (phys, s0) ∧
      (s0.clearFrames phys (pagesOf len)).mmapRange phys (mmapBase p base) p.cr3 (pagesOf len) =
        .ok (ok, res.machine) ∧
      (ok = true ∧ res.ret = mmapBase p base ∧ res.rdx = none ∨
        ok = false ∧ res.ret = 0 ∧ res.rdx = some .enomem) := by
  obtain ⟨⟨phys, s0⟩, halloc, hres⟩ := bind_eq_ok.1 hres
  rw [mmapBase]
  split_ifs at hres ⊢ with hb
  all_goals
    obtain ⟨⟨ok, s2⟩, hx, hres⟩ := bind_eq_ok.1 hres
    refine ⟨phys, s0, ok, halloc, ?_⟩
    cases ok <;> cases hres <;> exact ⟨hx, by simp⟩

theorem LowestRun.unique {q : Pmm} {b n : ℕ} (ha : q.LowestRun a n) (hb : q.LowestRun b n) :
    a = b := by
  rcases Nat.lt_trichotomy a b with h | h | h
  · exact absurd ha.1 (hb.2 a h)
  · exact h
  · exact absurd hb.1 (ha.2 b h)

theorem MmapFails.pos {n : ℕ} (h : MmapFails s r va n) : 0 < n := by
  rcases h with h | ⟨i, hi, -⟩
  · exact zero_lt_of_lt h
  · exact zero_lt_of_lt hi

/-- The mapped pages of the range are mapped to different frames in use, and not to tables or to
physical page 0, which does not stop the walk to a page that is not mapped. -/
structure OwnRange (s : Machine) (r va n : ℕ) : Prop where
  frame : ∀ i < n, ∀ f fl, translate s.mem r (pageAt va i) = some (f, fl) →
    s.pmm.Used f ∧ f ≠ 0 ∧ ¬ IsPageTable s.mem r f
  inj : ∀ i < n, ∀ j < n, ∀ f fl fl', translate s.mem r (pageAt va i) = some (f, fl) →
    translate s.mem r (pageAt va j) = some (f, fl') → pageAt va i = pageAt va j
  quiet : ∀ i < n, translate s.mem r (pageAt va i) = none → ¬ Huge (s.mem 0 (pageAt va i).p2Off)

/-- One of the first `n` pages of the range is mapped to the frame `f`. -/
def RangeMaps (s : Machine) (r va n f : ℕ) : Prop :=
  ∃ i < n, ∃ fl, translate s.mem r (pageAt va i) = some (f, fl)

theorem RangeMaps.succ {n f : ℕ} (h : RangeMaps s r va n f) : RangeMaps s r va (n + 1) f :=
  h.imp fun _ ⟨hi, hx⟩ => ⟨lt_succ_of_lt hi, hx⟩

/-- The pages before `k` were unmapped and their frames freed. -/
structure Unmapped (r va k : ℕ) (s s' : Machine) : Prop where
  tree : TreeOk s' r
  regular : ∀ v, Regular s'.mem r v
  clean : Clean s'.mem r
  inside : ∀ u ∈ rangeOf va k, translate s'.mem r u = none
  outside : ∀ u ∉ rangeOf va k, translate s'.mem r u = translate s.mem r u
  walk : ∀ π t, pageWalk s.mem r π = some t → pageWalk s'.mem r π = some t
  freed : ∀ f, s.pmm.Used f → s'.pmm.Used f ∨ RangeMaps s r va k f
  fresh : ∀ t, IsPageTable s'.mem r t → s.pmm.Used t → IsPageTable s.mem r t ∨ RangeMaps s r va k t
  zero : s'.mem 0 = s.mem 0

theorem virtToPhys_lt (virt p4 : ℕ) : s.virtToPhys virt p4 < 2 ^ 64 := by
  unfold virtToPhys
  dsimp only
  split_ifs
  · exact mod_lt _ (by decide)
  · exact mod_lt _ (by decide)
  all_goals decide

theorem not_stray_of_walk {t : ℕ} (h : pageWalk mem r [v.p3Off, v.p4Off] = some t) :
    ¬ Stray mem r v := by
  rintro ⟨⟨t', ht', hp⟩, -⟩
  rw [pageWalk_cons _ ht', pageChild_eq_none_of_not_present hp] at h
  cases h

/-- A mapped page has a table of the second level. -/
theorem exists_walk_of_translate {x : ℕ × ℕ} (hreg : Regular mem r v)
    (h : translate mem r v = some x) :
    ∃ t, pageWalk mem r [v.p3Off, v.p4Off] = some t := by
  rw [← isSome_iff_exists, isSome_iff_ne_none]
  intro hnone
  rw [translate_eq, pageWalk_cons_none _ hnone, hnone] at h
  cases h3 : pageWalk mem r [v.p4Off] with
  | none =>
    simp only [h3] at h
    cases h
  | some t =>
    simp only [h3, bind_some, giantLeafOf] at h
    split_ifs at h with hp
    exact hreg.noGiant t h3 hp.1 hp.2

namespace Unmapped

variable {k n : ℕ} {s' s2 : Machine}

section Own

variable (h : Unmapped r va k s s') (hs : UserSpace s r) (ho : OwnRange s r va n)
include h hs ho

/-- Physical page 0 stays reserved. -/
theorem zero_not_table (hk : k ≤ n) : s'.pmm.Used 0 ∧ ¬ IsPageTable s'.mem r 0 := by
  have hnot : ¬ RangeMaps s r va k 0 := by
    rintro ⟨i, hi, fl, hx⟩
    exact (ho.frame i (hi.trans_le hk) 0 fl hx).2.1 rfl
  exact ⟨(h.freed 0 hs.reserved.2).resolve_right hnot,
    fun ht => (h.fresh 0 ht hs.reserved.2).elim hs.notTable hnot⟩

/-- A page that was mapped or was visited has tables. -/
theorem not_stray (hk : k < n) : ¬ Stray s'.mem r (pageAt va k) := by
  cases hx : translate s.mem r (pageAt va k) with
  | some x =>
    obtain ⟨t, ht⟩ := exists_walk_of_translate (hs.regular _) hx
    exact not_stray_of_walk (h.walk _ _ ht)
  | none =>
    rintro ⟨-, hh⟩
    rw [h.zero] at hh
    exact ho.quiet k hk hx hh

end Own

/-- Unmapping the next page, before its frame is freed. -/
theorem touch {s1 : Machine} (h : Unmapped r va k s s')
    (h0 : s'.pmm.Used 0 ∧ ¬ IsPageTable s'.mem r 0) (ht : Touch r {pageAt va k} s' s1)
    (hnone : translate s1.mem r (pageAt va k) = none) : Unmapped r va (k + 1) s s1 where
  tree := ht.ok
  regular v := ht.regular (h.regular v)
  clean := ht.clean_of_clean h.clean
  inside := by
    rintro u ⟨j, hj, rfl⟩
    by_cases hu : pageAt va j = pageAt va k
    · rw [hu]
      exact hnone
    · rw [ht.translate _ hu]
      refine h.inside _ (mem_rangeOf ?_)
      rcases Nat.lt_succ_iff_lt_or_eq.1 hj with hj | rfl
      · exact hj
      · exact absurd rfl hu
  outside u hu := by
    rw [ht.translate u fun he => hu (he ▸ mem_rangeOf k.lt_succ_self)]
    exact h.outside u fun hu' => hu (rangeOf_mono k.le_succ hu')
  walk π t hπ := ht.walk π t (h.walk π t hπ)
  freed f hf := (h.freed f hf).imp ht.used_of_used RangeMaps.succ
  fresh t := by
    rintro ⟨π, hπ⟩ hu
    rcases ht.fresh π t hπ with hold | ⟨hfree, -⟩
    · exact (h.fresh t ⟨π, hold⟩ hu).imp_right RangeMaps.succ
    · exact Or.inr ((h.freed t hu).resolve_left hfree).succ
  zero := by
    refine (ht.frame 0 ?_).trans h.zero
    rintro ⟨π, hπ⟩
    rcases ht.fresh π 0 hπ with hold | ⟨hfree, -⟩
    · exact h0.2 ⟨π, hold⟩
    · exact hfree h0.1

/-- The next page is mapped now exactly as at the start, unless it was visited before. -/
theorem translate_of_some {x : ℕ × ℕ} (h : Unmapped r va k s s')
    (hx : translate s'.mem r (pageAt va k) = some x) :
    pageAt va k ∉ rangeOf va k ∧ translate s.mem r (pageAt va k) = some x := by
  have hnew : pageAt va k ∉ rangeOf va k := by
    intro hold
    rw [h.inside _ hold] at hx
    cases hx
  exact ⟨hnew, by rw [← h.outside _ hnew, hx]⟩

/-- Freeing the frame of the page that was just unmapped. -/
theorem free {s1 : Machine} {f fl : ℕ} (h : Unmapped r va k s s') (ho : OwnRange s r va n)
    (hk : k < n) (hf : translate s'.mem r (pageAt va k) = some (f, fl))
    (h1 : Unmapped r va (k + 1) s s1) (ht : Touch r {pageAt va k} s' s1) (hmem : s2.mem = s1.mem)
    (hused : ∀ g, s2.pmm.Used g ↔ ¬ (f ≤ g ∧ g < f + 1) ∧ s1.pmm.Used g) :
    Unmapped r va (k + 1) s s2 := by
  -- the page was not visited before, so its frame is still in use, and not a new table
  obtain ⟨hnew, hf0⟩ := h.translate_of_some hf
  obtain ⟨hu, -, hnt⟩ := ho.frame k hk f fl hf0
  have hnot : ¬ RangeMaps s r va k f := by
    rintro ⟨i, hi, fl', hx⟩
    exact hnew ⟨i, hi, ho.inj i (hi.trans hk) k hk f fl' fl hx hf0⟩
  have hnt1 : ¬ IsPageTable s1.mem r f := by
    rintro ⟨π, hπ⟩
    rcases ht.fresh π f hπ with hold | ⟨hfree, -⟩
    · exact (h.fresh f ⟨π, hold⟩ hu).elim hnt hnot
    · exact hfree ((h.freed f hu).resolve_right hnot)
  have hkeep : ∀ g, g ≠ f → s1.pmm.Used g → s2.pmm.Used g := fun g hg hu =>
    (hused g).2 ⟨fun hin => hg (by omega), hu⟩
  obtain ⟨mem, pmm⟩ := s2
  cases hmem
  refine { h1 with tree := h1.tree.congr (fun _ => rfl) ?_, freed := fun g hg => ?_ }
  · rintro t ⟨π, hπ⟩
    refine hkeep t ?_ (h1.tree.used π t hπ)
    rintro rfl
    exact hnt1 ⟨π, hπ⟩
  · by_cases hgf : g = f
    · exact Or.inr ⟨k, k.lt_succ_self, fl, hgf ▸ hf0⟩
    · exact (h1.freed g hg).imp_left (hkeep g hgf)

end Unmapped

/-- A round of `munmap` frees the frame of the page, if the page was mapped. -/
theorem munmapPage_cases {k : ℕ} {s' s2 : Machine} (hr : r < 2 ^ 52) (hc : Clean s'.mem r)
    (hreg : ∀ v, Regular s'.mem r v) (ha : va % 0x1000 = 0)
    (hns : ¬ Stray s'.mem r (pageAt va k))
    (hres : s'.munmapPage (r * 0x1000) ((va + k * 0x1000) % 2 ^ 64) = .ok s2) :
    ∃ ret s1, s'.vmmUnmapPages ((va + k * 0x1000) % 2 ^ 64) (r * 0x1000) 1 = .ok (ret, s1) ∧
      (s2 = s1 ∨ ∃ f fl, translate s'.mem r (pageAt va k) = some (f, fl) ∧ s2.mem = s1.mem ∧
        ∀ g, s2.pmm.Used g ↔ ¬ (f ≤ g ∧ g < f + 1) ∧ s1.pmm.Used g) := by
  obtain ⟨⟨ret, s1⟩, hun, hres⟩ := bind_eq_ok.1 hres
  refine ⟨ret, s1, hun, ?_⟩
  have hlt := @virtToPhys_lt s' ((va + k * 0x1000) % 2 ^ 64) (r * 0x1000)
  rcases virtToPhys_cases hr hc (hreg (pageAt va k)) rfl with hv | ⟨f, fl, hf, hv⟩ | hst
  · rw [hv, if_neg (not_not.2 rfl)] at hres
    cases hres
    exact Or.inl rfl
  · have hoff : (va + k * 0x1000) % 2 ^ 64 % 0x1000 = 0 := by omega
    rw [hv, hoff, Nat.add_zero] at hres hlt
    split_ifs at hres with hmap
    · obtain ⟨hmem, -, hused⟩ := pmmUnalloc_ok (by omega) hres
      exact Or.inr ⟨f, fl, hf, hmem, hused⟩
    · exact absurd (not_not.1 hmap) (by unfold notMapped; omega)
  · exact absurd hst hns

namespace Unmapped

variable {k n : ℕ} {s' s2 : Machine}

theorem step (h : Unmapped r va k s s') (hs : UserSpace s r) (ho : OwnRange s r va n) (hk : k < n)
    (ha : va % 0x1000 = 0)
    (hres : s'.munmapPage (r * 0x1000) ((va + k * 0x1000) % 2 ^ 64) = .ok s2) :
    Unmapped r va (k + 1) s s2 := by
  obtain ⟨ret, s1, hun, hcase⟩ :=
    munmapPage_cases h.tree.root_lt h.clean h.regular ha (h.not_stray hs ho hk) hres
  obtain ⟨ht, hnone⟩ := (vmmUnmapPages_one k h.tree h.regular).of_ok hun
  have h1 := h.touch (h.zero_not_table hs ho hk.le) ht hnone
  obtain rfl | ⟨f, fl, hf, hmem, hused⟩ := hcase
  · exact h1
  · exact h.free ho hk hf h1 ht hmem hused

end Unmapped

/-- The pages before `k` were unmapped and their frames freed, with the tables there were.  Frames
that are freed twice, or while they are tables, do no harm then, so the frames marked used count for
`freed` only. -/
structure UnmappedInPlace (r va k : ℕ) (s s' : Machine) : Prop where
  unmapped : Unmapped r va k s ⟨s'.mem, s.pmm⟩
  tables : ∀ t, IsPageTable s'.mem r t → IsPageTable s.mem r t
  freed : ∀ f, s.pmm.Used f → s'.pmm.Used f ∨ RangeMaps s r va k f

theorem UnmappedInPlace.step {k : ℕ} {s' s2 : Machine} (h : UnmappedInPlace r va k s s')
    (hs : UserSpace s r) (hw : ∃ t, pageWalk s.mem r (pageAt va k).tables = some t)
    (ha : va % 0x1000 = 0)
    (hres : s'.munmapPage (r * 0x1000) ((va + k * 0x1000) % 2 ^ 64) = .ok s2) :
    UnmappedInPlace r va (k + 1) s s2 := by
  obtain ⟨hu, htables, hfreed⟩ := h
  obtain ⟨t, ht⟩ := hw
  have hw' : pageWalk s'.mem r (pageAt va k).tables = some t := hu.walk _ _ ht
  obtain ⟨t2, h2, -⟩ := TableTree.walk_cons_eq_some.1 hw'
  obtain ⟨ret, s1, hun, hcase⟩ := @munmapPage_cases r va k s' s2 hu.tree.root_lt hu.clean
    hu.regular ha (not_stray_of_walk h2) hres
  obtain ⟨hpmm, htouch, hnone⟩ := vmmUnmapPages_inPlace hu.tree hw' hun
  have h1 : UnmappedInPlace r va (k + 1) s s1 := by
    refine ⟨hu.touch ⟨hs.reserved.2, fun h0 => hs.notTable (htables 0 h0)⟩ htouch hnone, ?_,
      fun f hf => ?_⟩
    · rintro t ⟨π, hπ⟩
      -- a new table would be a frame that was free, but all tables are in use
      rcases htouch.fresh π t hπ with hold | ⟨hfree, -⟩
      · exact htables t ⟨π, hold⟩
      · exact absurd (htouch.ok.used π t hπ) hfree
    · rw [hpmm]
      exact (hfreed f hf).imp_right RangeMaps.succ
  obtain rfl | ⟨f, fl, hf, hmem, hused⟩ := hcase
  · exact h1
  · obtain ⟨mem, pmm⟩ := s2
    cases hmem
    refine ⟨h1.unmapped, h1.tables, fun g hg => ?_⟩
    by_cases hgf : g = f
    · exact Or.inr ⟨k, k.lt_succ_self, fl, hgf ▸ (hu.translate_of_some hf).2⟩
    · exact (h1.freed g hg).imp_left fun hu1 => (hused g).2 ⟨fun hin => hgf (by omega), hu1⟩

theorem userSpace_onePage : UserSpace (onePage 0xff) 1 where
  toTreeOk := treeOk_onePage (by decide)
  regular := Regular.of_describes (describes_onePage 0xff) (by decide +kernel) (by decide +kernel)
  clean π t i ht := by
    have h : ∀ x ∈ onePageTables, ∀ i, ¬ Present ((onePage 0xff).mem x.2 i) →
        (onePage 0xff).mem x.2 i = 0 := by decide +kernel
    exact h _ ((describes_onePage 0xff).mem ht) i
  reserved := by decide
  notTable := by
    rintro ⟨π, hπ⟩
    have h : ∀ x ∈ onePageTables, x.2 ≠ 0 := by decide
    exact h _ ((describes_onePage 0xff).mem hπ) rfl

/-- The machine `onePage` with frame 9 in use as well. -/
def frameNineUsed : Machine := { mem := (onePage 0xff).mem, pmm := (onePage 0xff).pmm.pmmSetBit 9 }

end Machine

end DripOS
