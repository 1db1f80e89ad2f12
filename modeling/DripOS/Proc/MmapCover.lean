import DripOS.Proc.Mmap

/-!
# The memory that `mmap` returns

A program that asks `psuedo_mmap` for `len` bytes expects that every page with one of the bytes is
mapped to a frame of its own, which was allocated for it and holds zeros (`Provides`).

The number of pages is computed from `len` alone.  A base address inside a page moves the range past
the end of the last page, and a length close to `2 ^ 64` is rounded up to zero pages.  The base
address need not be canonical either.

`psuedoMmap_provides_iff` gives the calls that keep the promise.
-/

namespace DripOS

/-- The addresses that the processor accepts: the upper 17 bits are equal. -/
def Canonical (u : ℕ) : Prop := u < 2 ^ 47 ∨ 2 ^ 64 - 2 ^ 47 ≤ u ∧ u < 2 ^ 64

namespace Machine

variable {s s' s1 : Machine} {r a b n len va f : ℕ}

/-- The byte at `u` can be read and written by the program with root table `r`, in the frame `f`,
which was allocated between `s` and `s'` and holds zeros. -/
structure Backed (r : ℕ) (s s' : Machine) (u f : ℕ) : Prop where
  canonical : Canonical u
  mapped : ∃ fl, translate s'.mem r (vmmVirtToOffs u) = some (f, fl) ∧
    fl &&& vmmPresent ≠ 0 ∧ fl &&& vmmWrite ≠ 0 ∧ fl &&& vmmUser ≠ 0
  before : ¬ s.pmm.Used f
  after : s'.pmm.Used f
  data : ¬ IsPageTable s'.mem r f
  zero : s'.mem f = fun _ => 0

/-- The `len` bytes from `a` on are backed, and pages have frames of their own. -/
structure Provides (r a len : ℕ) (s s' : Machine) : Prop where
  backed : ∀ k < len, ∃ f, Backed r s s' ((a + k) % 2 ^ 64) f
  distinct : ∀ k < len, ∀ k' < len, ∀ f, Backed r s s' ((a + k) % 2 ^ 64) f →
    Backed r s s' ((a + k') % 2 ^ 64) f →
    (a + k) % 2 ^ 64 / 0x1000 = (a + k') % 2 ^ 64 / 0x1000

/-! ### The block of a call that succeeds -/

/-- The frames from `b` on were allocated and cleared, and `n` pages mapped to them. -/
structure Granted (r va b n : ℕ) (s s₁ s' : Machine) : Prop where
  reserved : Reserved s b n s₁
  cleared : ∀ f, b ≤ f → f < b + n → s₁.mem f = fun _ => 0
  mapped : Mapped r va b n s₁ s'

theorem psuedoMmap_granted {p : Process} {base : ℕ} {res : MmapResult} (hs : UserSpace s r)
    (hp : p.cr3 = r * 0x1000) (hres : s.psuedoMmap (some p) base len = .ok res)
    (hret : res.ret ≠ 0) :
    res.ret = mmapBase p base ∧
      ∃ b s1, Granted r (mmapBase p base) b (Pmm.pagesOf len) s s1 res.machine := by
  obtain ⟨phys, s0, ok, halloc, hx, ⟨rfl, hbase, -⟩ | ⟨-, hzero, -⟩⟩ := psuedoMmap_ok hres
  · obtain ⟨b, rfl, hr⟩ := pmmAlloc_reserved hs.reserved (Pmm.pagesOf_lt len) halloc
    have hbound : b + Pmm.pagesOf len ≤ 2 ^ 52 := hr.alloc.lowest.1.1.trans s.pmm.maxPage_le
    refine ⟨hbase, b, _, hr, fun f h1 h2 => if_pos (by omega), ?_⟩
    rw [hp] at hx
    rcases mmapRange_spec (hr.tree hs.toTreeOk) (fun v => hr.regular hs.toTreeOk (hs.regular v))
      hbound hx with ⟨-, hm⟩ | ⟨hfalse, -⟩
    · exact hm
    · cases hfalse
  · exact absurd hzero hret

namespace Granted

section

variable (h : Granted r va b n s s1 s') (hs : TreeOk s r)
include h hs

/-- The frames of the block are no tables. -/
theorem data (h1 : b ≤ f) (h2 : f < b + n) : ¬ IsPageTable s'.mem r f := by
  rintro ⟨π, hπ⟩
  rcases h.mapped.touch.fresh π f hπ with hold | ⟨hfree, -⟩
  · rw [h.reserved.walk hs] at hold
    exact h.reserved.not_used h1 h2 (hs.used π f hold)
  · exact hfree ((h.reserved.used f).2 (Or.inl ⟨h1, h2⟩))

/-- The frames that were allocated for data are those of the block. -/
theorem mem_block_iff :
    ¬ s.pmm.Used f ∧ s'.pmm.Used f ∧ ¬ IsPageTable s'.mem r f ↔ b ≤ f ∧ f < b + n := by
  constructor
  · rintro ⟨hfree, hused, hdata⟩
    have hold := ((h.mapped.touch.used f).1 hused).resolve_right hdata
    exact ((h.reserved.used f).1 hold).resolve_right hfree
  · rintro ⟨h1, h2⟩
    exact ⟨h.reserved.not_used h1 h2,
      h.mapped.touch.used_of_used ((h.reserved.used f).2 (Or.inl ⟨h1, h2⟩)), h.data hs h1 h2⟩

theorem backed {u j : ℕ} (hj : j < n) (hu : vmmVirtToOffs u = pageAt va j) (hc : Canonical u) :
    Backed r s s' u (b + j) := by
  have hblock : b ≤ b + j ∧ b + j < b + n := ⟨Nat.le_add_right b j, Nat.add_lt_add_left hj b⟩
  obtain ⟨hfree, hused, hdata⟩ := (h.mem_block_iff hs).2 hblock
  refine ⟨hc, ⟨_, hu ▸ h.mapped.after j hj, by decide, by decide, by decide⟩, hfree, hused, hdata,
    ?_⟩
  rw [h.mapped.touch.frame _ hdata, h.cleared _ hblock.1 hblock.2]

end

/-- The frame of a backed byte is the one of its page. -/
theorem frame_of_backed (h : Granted r va b n s s1 s') {u j : ℕ} (hj : j < n)
    (hu : vmmVirtToOffs u = pageAt va j) (hf : Backed r s s' u f) : f = b + j := by
  obtain ⟨fl, hfl, -⟩ := hf.mapped
  rw [hu, h.mapped.after j hj] at hfl
  exact (congrArg Prod.fst (Option.some.inj hfl)).symm

end Granted

/-! ### The bytes of the range -/

theorem vmmVirtToOffs_byte (a k : ℕ) :
    vmmVirtToOffs ((a + k) % 2 ^ 64) = pageAt a ((a % 0x1000 + k) / 0x1000) := by
  rw [pageAt, vmmVirtToOffs_eq_iff]
  omega

theorem page_byte (a k : ℕ) : (a + k) % 2 ^ 64 / 0x1000 =
    (a / 0x1000 + (a % 0x1000 + k) / 0x1000) % 2 ^ 52 := by omega

/-- The first byte of the range in its page `j`. -/
theorem exists_byte {j : ℕ} (hlen : len ≠ 0) (h : j * 0x1000 < a % 0x1000 + len) :
    ∃ k < len, (a % 0x1000 + k) / 0x1000 = j :=
  ⟨j * 0x1000 - a % 0x1000, by omega, by omega⟩

/-- A range that is provided ends in the pages that were mapped. -/
theorem Provides.le_of_granted (h : Provides r a len s s') (hg : Granted r a b n s s1 s')
    (hs : TreeOk s r) (hlen : len ≠ 0) : a % 0x1000 + len ≤ n * 0x1000 := by
  by_contra hgt
  have hbound := hg.mapped.bound
  -- the first byte behind the pages
  obtain ⟨k, hk, hkn⟩ := exists_byte hlen (Nat.not_le.1 hgt)
  obtain ⟨f, hf⟩ := h.backed k hk
  -- its frame belongs to the block, and so to a page of the range as well
  obtain ⟨h1, h2⟩ := (hg.mem_block_iff hs).1 ⟨hf.before, hf.after, hf.data⟩
  obtain ⟨j, rfl⟩ := Nat.exists_eq_add_of_le h1
  have hj : j < n := Nat.lt_of_add_lt_add_left h2
  obtain ⟨k', hk', hkj⟩ := @exists_byte a len j hlen (by omega)
  have hpage : vmmVirtToOffs ((a + k') % 2 ^ 64) = pageAt a j := by rw [vmmVirtToOffs_byte, hkj]
  obtain ⟨f', hf'⟩ := h.backed k' hk'
  obtain rfl := hg.frame_of_backed hj hpage hf'
  have hsame := h.distinct k hk k' hk' _ hf hf'
  omega

/-- The bytes of the mapped pages are provided. -/
theorem Granted.provides (hg : Granted r a b n s s1 s') (hs : TreeOk s r)
    (hle : a % 0x1000 + len ≤ n * 0x1000) (hc : ∀ k < len, Canonical ((a + k) % 2 ^ 64)) :
    Provides r a len s s' := by
  have hin : ∀ k < len, (a % 0x1000 + k) / 0x1000 < n := fun k hk => by omega
  refine ⟨fun k hk => ⟨_, hg.backed hs (hin k hk) (vmmVirtToOffs_byte a k) (hc k hk)⟩, ?_⟩
  intro k hk k' hk' f hf hf'
  have he := hg.frame_of_backed (hin k hk) (vmmVirtToOffs_byte a k) hf
  have he' := hg.frame_of_backed (hin k' hk') (vmmVirtToOffs_byte a k') hf'
  rw [page_byte, page_byte, Nat.add_left_cancel (he.symm.trans he')]

/-- **When `mmap` provides what it returns.**  The pages from that of the base address on have to
reach the end of the range, and the addresses have to be canonical. -/
theorem psuedoMmap_provides_iff {p : Process} {base len : ℕ} {res : MmapResult}
    (hs : UserSpace s r) (hp : p.cr3 = r * 0x1000)
    (hres : s.psuedoMmap (some p) base len = .ok res) (hret : res.ret ≠ 0) :
    Provides r res.ret len s res.machine ↔ len = 0 ∨
      mmapBase p base % 0x1000 + len ≤ Pmm.pagesOf len * 0x1000 ∧
      ∀ k < len, Canonical ((mmapBase p base + k) % 2 ^ 64) := by
  obtain ⟨hbase, b, s1, hg⟩ := psuedoMmap_granted hs hp hres hret
  rw [hbase]
  constructor
  · intro h
    by_cases hlen : len = 0
    · exact Or.inl hlen
    · refine Or.inr ⟨h.le_of_granted hg hs.toTreeOk hlen, fun k hk => ?_⟩
      obtain ⟨f, hf⟩ := h.backed k hk
      exact hf.canonical
  · rintro (rfl | ⟨hle, hc⟩)
    · exact ⟨fun k hk => absurd hk k.not_lt_zero, fun k hk => absurd hk k.not_lt_zero⟩
    · exact hg.provides hs.toTreeOk hle hc

/-- Two pages at `0x400000`. -/
theorem psuedoMmap_provides_onePage :
    ∃ res, (onePage 0xff).psuedoMmap (some ⟨0x1000, 0, 0, 0⟩) 0x400000 0x1800 = .ok res ∧
      Provides 1 0x400000 0x1800 (onePage 0xff) res.machine := by
  refine exists_ok_and MmapResult.ret 0x400000 (by decide +kernel) fun res hres hret => ?_
  have h := psuedoMmap_provides_iff userSpace_onePage rfl hres (by rw [hret]; decide)
  rw [hret] at h
  refine h.2 (Or.inr ⟨by decide, fun k hk => Or.inl ?_⟩)
  rw [mmapBase, if_pos (by decide)]
  omega

/-- **`mmap` does not provide what it returns.**  A page at `0x400800` ends in the next page, and `2
^ 64 - 1` bytes are no page at all. -/
theorem psuedoMmap_not_provides :
    (∃ res, (onePage 0xff).psuedoMmap (some ⟨0x1000, 0, 0, 0⟩) 0x400800 0x1000 = .ok res ∧
      res.ret = 0x400800 ∧ ¬ Provides 1 0x400800 0x1000 (onePage 0xff) res.machine) ∧
    ∃ res, (onePage 0xff).psuedoMmap (some ⟨0x1000, 0, 0, 0⟩) 0x400000 (2 ^ 64 - 1) = .ok res ∧
      res.ret = 0x400000 ∧ ¬ Provides 1 0x400000 (2 ^ 64 - 1) (onePage 0xff) res.machine := by
  constructor
  · refine exists_ok_and
      (fun res => (res.ret, translate res.machine.mem 1 (vmmVirtToOffs 0x401000)))
      (0x400800, none) (by decide +kernel) fun res _ h => ?_
    obtain ⟨hret, hnone⟩ := Prod.mk.inj h
    refine ⟨hret, fun hp => ?_⟩
    obtain ⟨f, hf⟩ := hp.backed 0x800 (by decide)
    obtain ⟨fl, hfl, -⟩ := hf.mapped
    cases hfl.symm.trans hnone
  · refine exists_ok_and
      (fun res => (res.ret, translate res.machine.mem 1 (vmmVirtToOffs 0x400000)))
      (0x400000, none) (by decide +kernel) fun res _ h => ?_
    obtain ⟨hret, hnone⟩ := Prod.mk.inj h
    refine ⟨hret, fun hp => ?_⟩
    obtain ⟨f, hf⟩ := hp.backed 0 (by decide)
    obtain ⟨fl, hfl, -⟩ := hf.mapped
    cases hfl.symm.trans hnone

end Machine

end DripOS
