import DripOS.Mm.PatPages
import DripOS.Mm.UserFrames
import DripOS.Proc.MmapCover
import DripOS.Proc.TargetPid

/-!
# Sharing a buffer with another process

`syscall_map_from_us_to_process` of `src/proc/syscalls.c` maps the pages of a buffer into another
process, at its break.  It translates the first page only, and takes the frames behind that one for
the others.  The number of pages is computed from the size alone, so that a buffer that begins
inside a page may end behind them, and neither `range_mapped` nor `range_mapped_in_userspace` looks
at the page in which a range ends.  Pages that the other process has at its break already are kept.

`Shares` : both processes see the same bytes, and the other process gets no frame that the caller
has no `VMM_USER` mapping of.  `mapFromUs_shares_iff` gives the calls for which this is the case.
-/

namespace DripOS

open Pmm

/-- What `syscall_map_from_us_to_process` leaves behind. -/
structure MapResult where
  rdx : ℕ
  table : ProcTable Process
  machine : Machine

namespace Machine

/-- `syscall_map_from_us_to_process`, with `cr3` of the caller. -/
def syscallMapFromUsToProcess (s : Machine) (table : ProcTable Process) (cr3 rdi rsi rdx : ℕ) :
    Except Halt MapResult :=
  if !s.rangeMapped cr3 rsi rdx then pure ⟨0, table, s⟩
  else
    let phys := s.virtToPhys (rsi &&& vmm4kPermMask) cr3
    if !s.rangeMappedInUserspace cr3 phys rdx then pure ⟨0, table, s⟩
    else
      let start := rsi &&& vmm4kPermMask
      let stop := (start + (rdx + 0x1000 - 1) % 2 ^ 64 / 0x1000 * 0x1000) % 2 ^ 64
      match table.mapFromUsToProcessTarget rdi with
      | .rejected => pure ⟨0, table, s⟩
      | .outside _ => .error .fault
      | .empty _ => .error .fault
      | .process pid process => do
        let pages := (stop + 2 ^ 64 - start) % 2 ^ 64 / 0x1000
        let mappedAddr := process.currentBrk
        let process' :=
          { process with currentBrk := (process.currentBrk + pages * 0x1000) % 2 ^ 64 }
        let r ← s.vmmMapPages phys mappedAddr process.cr3 pages
          (vmmPresent ||| vmmUser ||| vmmWrite)
        pure ⟨(mappedAddr + (rsi &&& 0xfff)) % 2 ^ 64,
          { table with processes := table.processes.set pid (some process') }, r.2⟩

variable {s s' : Machine} {r q a n t : ℕ} {p : Process}

/-! ### What the call is for -/

/-- The `n` bytes from `t` on in the address space `q` are those from `a` on in `r`, and pages were
mapped only to frames that `r` may see. -/
structure Shares (r q a n t : ℕ) (s s' : Machine) : Prop where
  same : ∀ k < n, ∃ x, s.toPhys r ((a + k) % 2 ^ 64) = some x ∧
    s'.toPhys q ((t + k) % 2 ^ 64) = some x
  user : ∀ v f fl, translate s.mem q v = none → translate s'.mem q v = some (f, fl) →
    s.UserFrame r f

/-- The other process; its break is at a page. -/
structure BrkOk (s : Machine) (p : Process) (q : ℕ) : Prop where
  cr3 : p.cr3 = q * 0x1000
  wellFormed : WellFormed s q
  aligned : p.currentBrk % 0x1000 = 0
  lt : p.currentBrk < 2 ^ 64

/-- Page `i` from `brk` on has the frame `f` after `n` pages were mapped to the frames from `f₀` on:
it had it before, or it was free. -/
def GetsFrame (s : Machine) (q brk n f₀ i f : ℕ) : Prop :=
  (∃ fl, translate s.mem q (pageAt brk i) = some (f, fl)) ∨
    translate s.mem q (pageAt brk i) = none ∧ i < n ∧ f = (f₀ + i) % 2 ^ 52

/-- The `len` bytes from `a` on in `r` and the pages from `brk` on in `q` before the call.  The
frame of the first page of the caller is `f₀`. -/
structure PagesAgree (s : Machine) (r q a len brk f₀ : ℕ) : Prop where
  first : ∃ fl, translate s.mem r (pageAt a 0) = some (f₀, fl)
  page : ∀ i, i * 0x1000 < a % 0x1000 + len →
    ∃ f fl, translate s.mem r (pageAt a i) = some (f, fl) ∧ GetsFrame s q brk (pagesOf len) f₀ i f
  /-- `range_mapped_in_userspace` looks at the other frames. -/
  user : ∀ i < pagesOf len, len / 0x1000 ≤ i → translate s.mem q (pageAt brk i) = none →
    s.UserFrame r ((f₀ + i) % 2 ^ 52)

/-! ### The pages at the break -/

/-- What the call does to the address space of the other process. -/
structure MappedAtBrk (s : Machine) (p : Process) (q phys n : ℕ) (s' : Machine) : Prop where
  inside : ∀ i < n, translate s'.mem q (pageAt p.currentBrk i) =
    some ((translate s.mem q (pageAt p.currentBrk i)).getD
      (frameAt phys i, vmmPresent ||| vmmUser ||| vmmWrite))
  outside : ∀ v, (∀ i < n, v ≠ pageAt p.currentBrk i) → translate s'.mem q v = translate s.mem q v

theorem mapFromUs_mapped {table : ProcTable Process} {rdi rsi rdx pid : ℕ} {res : MapResult}
    (htarget : table.mapFromUsToProcessTarget rdi = .process pid p)
    (hbrk : BrkOk s p q) (hn : pagesOf rdx < 2 ^ 36)
    (hres : s.syscallMapFromUsToProcess table (r * 0x1000) rdi rsi rdx = .ok res)
    (hret : res.rdx ≠ 0) :
    let phys := s.virtToPhys (rsi &&& vmm4kPermMask) (r * 0x1000)
    s.rangeMappedInUserspace (r * 0x1000) phys rdx = true ∧
    res.rdx = p.currentBrk + rsi % 0x1000 ∧
    MappedAtBrk s p q phys (pagesOf rdx) res.machine := by
  intro phys
  unfold syscallMapFromUsToProcess at hres
  dsimp only at hres
  cases hmapped : s.rangeMapped (r * 0x1000) rsi rdx with
  | false =>
    rw [hmapped] at hres
    cases hres
    exact absurd rfl hret
  | true =>
    cases huser : s.rangeMappedInUserspace (r * 0x1000) phys rdx with
    | false =>
      rw [hmapped, huser] at hres
      cases hres
      exact absurd rfl hret
    | true =>
      rw [hmapped, huser, htarget] at hres
      simp only [Bool.not_true] at hres
      have hpages : ((((rsi &&& vmm4kPermMask) + (rdx + 0x1000 - 1) % 2 ^ 64 / 0x1000 * 0x1000) %
          2 ^ 64) + 2 ^ 64 - (rsi &&& vmm4kPermMask)) % 2 ^ 64 / 0x1000 = pagesOf rdx := by
        have hlt := entryFrame_lt rsi
        rw [and_permMask, pagesOf]
        omega
      rw [hpages, hbrk.cr3] at hres
      obtain ⟨⟨ret, s'⟩, hmap, hres⟩ := bind_eq_ok.1 hres
      cases hres
      have haligned := hbrk.aligned
      have hlt := hbrk.lt
      have hspec := (vmmMapPages_spec hbrk.wellFormed.toTreeOk
        (fun i _ => hbrk.wellFormed.regular _) hn.le (by decide) (by decide)).of_ok hmap
      refine ⟨rfl, ?_, fun i hi => ?_, fun v hv => ?_⟩
      · have haddr : (p.currentBrk + (rsi &&& 0xfff)) % 2 ^ 64 = p.currentBrk + rsi % 0x1000 := by
          rw [Nat.and_two_pow_sub_one_eq_mod rsi 12]
          omega
        exact haddr
      · exact hspec.inside i hi
      · exact hspec.touch.translate v fun ⟨i, hi, he⟩ => hv i hi he.symm

theorem toPhys_brk (hbrk : BrkOk s p q) (k : ℕ) :
    s'.toPhys q ((p.currentBrk + a % 0x1000 + k) % 2 ^ 64) =
      (translate s'.mem q (pageAt p.currentBrk ((a % 0x1000 + k) / 0x1000))).map
        fun page => page.1 * 0x1000 + (a + k) % 0x1000 := by
  have haligned := hbrk.aligned
  have hpage := vmmVirtToOffs_byte p.currentBrk (a % 0x1000 + k)
  rw [haligned, Nat.zero_add] at hpage
  have hoff : (p.currentBrk + a % 0x1000 + k) % 2 ^ 64 % 0x1000 = (a + k) % 0x1000 := by omega
  rw [toPhys, hoff, Nat.add_assoc, hpage]

theorem toPhys_buffer (k : ℕ) : s.toPhys r ((a + k) % 2 ^ 64) =
    (translate s.mem r (pageAt a ((a % 0x1000 + k) / 0x1000))).map
      fun page => page.1 * 0x1000 + (a + k) % 0x1000 := by
  have hoff : (a + k) % 2 ^ 64 % 0x1000 = (a + k) % 0x1000 := by omega
  rw [toPhys, vmmVirtToOffs_byte, hoff]

/-- The pages from the break on after the call. -/
theorem MappedAtBrk.getsFrame_iff {phys i f : ℕ} (h : MappedAtBrk s p q phys n s')
    (hn : n < 2 ^ 36) (hi : i ≤ n) :
    (∃ fl, translate s'.mem q (pageAt p.currentBrk i) = some (f, fl)) ↔
      GetsFrame s q p.currentBrk n (phys / 0x1000) i f := by
  unfold GetsFrame
  rcases Nat.lt_or_eq_of_le hi with hin | rfl
  · rw [h.inside i hin]
    cases translate s.mem q (pageAt p.currentBrk i) with
    | none => simp [hin, frameAt, eq_comm]
    | some x => simp [Prod.ext_iff]
  · -- the page behind the mapped ones stays as it is
    rw [h.outside]
    · exact ⟨Or.inl, fun hg => hg.resolve_right fun hn => absurd hn.2.1 (Nat.lt_irrefl i)⟩
    · intro j hj he
      exact absurd (pageAt_inj hn (Nat.lt_succ_self i) (Nat.lt_succ_of_lt hj) he) hj.ne'

theorem pagesOf_lt_of_le {len : ℕ} (h : len ≤ 2 ^ 48 - 0x1000) : pagesOf len < 2 ^ 36 := by
  unfold pagesOf
  omega

/-- The pages that `range_mapped_in_userspace` looks at. -/
theorem lt_rangePages {f len i : ℕ} (hlen : len ≤ 2 ^ 48) (hi : i < len / 0x1000) :
    i < rangePages (f * 0x1000) len := by
  rw [rangePages, and_permMask, and_permMask, entryFrame_eq, entryFrame_eq]
  omega

section Bytes

variable {phys len : ℕ} (h : MappedAtBrk s p q phys (pagesOf len) s')

include h

/-- Bytes are shared if their pages have the same frames. -/
theorem same_iff (hbrk : BrkOk s p q) (hlen : len ≠ 0) (hlt : len ≤ 2 ^ 48 - 0x1000) :
    (∀ k < len, ∃ x, s.toPhys r ((a + k) % 2 ^ 64) = some x ∧
      s'.toPhys q ((p.currentBrk + a % 0x1000 + k) % 2 ^ 64) = some x) ↔
    ∀ i, i * 0x1000 < a % 0x1000 + len → ∃ f fl, translate s.mem r (pageAt a i) = some (f, fl) ∧
      GetsFrame s q p.currentBrk (pagesOf len) (phys / 0x1000) i f := by
  have hn := pagesOf_lt_of_le hlt
  have hle : ∀ i, i * 0x1000 < a % 0x1000 + len → i ≤ pagesOf len := by
    intro i hi
    unfold pagesOf
    omega
  constructor
  · intro hsame i hi
    obtain ⟨k, hk, hpage⟩ := exists_byte hlen hi
    obtain ⟨x, hx, hx'⟩ := hsame k hk
    rw [toPhys_buffer, hpage] at hx
    rw [toPhys_brk hbrk, hpage] at hx'
    obtain ⟨⟨f, fl⟩, hf, rfl⟩ := Option.map_eq_some_iff.1 hx
    obtain ⟨⟨f', fl'⟩, hf', heq⟩ := Option.map_eq_some_iff.1 hx'
    obtain rfl : f' = f := by
      dsimp only at heq
      omega
    exact ⟨f', fl, hf, (h.getsFrame_iff hn (hle i hi)).1 ⟨fl', hf'⟩⟩
  · intro hpages k hk
    have hi : (a % 0x1000 + k) / 0x1000 * 0x1000 < a % 0x1000 + len := by omega
    obtain ⟨f, fl, hf, hg⟩ := hpages _ hi
    obtain ⟨fl', hf'⟩ := (h.getsFrame_iff hn (hle _ hi)).2 hg
    rw [toPhys_buffer, toPhys_brk hbrk, hf, hf']
    exact ⟨_, rfl, rfl⟩

theorem user_iff : (∀ v f fl, translate s.mem q v = none → translate s'.mem q v = some (f, fl) →
      s.UserFrame r f) ↔ ∀ i < pagesOf len, translate s.mem q (pageAt p.currentBrk i) = none →
        s.UserFrame r (frameAt phys i) := by
  constructor
  · intro hu i hi hnone
    have hin := h.inside i hi
    rw [hnone] at hin
    exact hu _ _ _ hnone hin
  · intro hu v f fl hnone hf
    by_cases hin : ∃ i < pagesOf len, v = pageAt p.currentBrk i
    · obtain ⟨i, hi, rfl⟩ := hin
      rw [h.inside i hi, hnone] at hf
      cases hf
      exact hu i hi hnone
    · rw [h.outside v fun i hi he => hin ⟨i, hi, he⟩, hnone] at hf
      cases hf

end Bytes

/-- `virt_to_phys` of the first page. -/
theorem virtToPhys_first {f fl : ℕ} (hs : WellFormed s r) (ht : TablesMapped s.mem r)
    (hf : translate s.mem r (pageAt a 0) = some (f, fl)) :
    s.virtToPhys (a &&& vmm4kPermMask) (r * 0x1000) = f * 0x1000 := by
  have hpage : vmmVirtToOffs (a &&& vmm4kPermMask) = pageAt a 0 := by
    rw [pageAt, vmmVirtToOffs_eq_iff, and_permMask, entryFrame_eq]
    omega
  have hoff : (a &&& vmm4kPermMask) % 0x1000 = 0 := by
    rw [and_permMask]
    omega
  refine virtToPhys_of_toPhys hs.root_lt ht (hs.regular _) (toPhys_eq_some.2 ⟨f, fl, ?_, ?_⟩)
  · rw [hpage, hf]
  · rw [hoff, Nat.add_zero]

/-- Every page is a page of a range of the whole address space. -/
theorem exists_pageAt (a : ℕ) (v : PtOff) : ∃ i < 2 ^ 36, pageAt a i = v := by
  have hlt : v.vpn < 2 ^ 36 := by
    unfold PtOff.vpn
    omega
  refine ⟨(v.vpn + 2 ^ 36 - a / 0x1000 % 2 ^ 36) % 2 ^ 36, by omega, PtOff.vpn_inj ?_⟩
  rw [vpn_pageAt]
  omega

/-- A range of all pages is not shared, since one of them is not mapped. -/
theorem shares_iff_of_large {len brk : ℕ} (hhole : ∃ v, translate s.mem r v = none)
    (hlarge : 2 ^ 48 - 0x1000 < len) :
    Shares r q a len t s s' ↔ ∃ f₀, PagesAgree s r q a len brk f₀ := by
  obtain ⟨v, hv⟩ := hhole
  obtain ⟨i, hi, rfl⟩ := exists_pageAt a v
  have hin : i * 0x1000 < a % 0x1000 + len := by omega
  refine iff_of_false (fun h => ?_) fun ⟨f₀, h⟩ => ?_
  · obtain ⟨k, hk, hpage⟩ := exists_byte (by omega) hin
    obtain ⟨x, hx, -⟩ := h.same k hk
    rw [toPhys_buffer, hpage, hv] at hx
    cases hx
  · obtain ⟨f, fl, hf, -⟩ := h.page i hin
    cases hv.symm.trans hf

/-- **When the buffer is shared.**  Page by page, the caller has a frame there, and the other
process has the same frame at its break already, or a free page to which the frame is mapped since
it follows the frames before it; and the caller must see the frame that `range_mapped_in_userspace`
does not look at. -/
theorem mapFromUs_shares_iff {table : ProcTable Process} {rdi rsi rdx pid : ℕ} {res : MapResult}
    (hs : WellFormed s r) (ht : TablesMapped s.mem r) (hsmall : SmallPages s.mem r)
    (hhole : ∃ v, translate s.mem r v = none)
    (htarget : table.mapFromUsToProcessTarget rdi = .process pid p)
    (hbrk : BrkOk s p q) (hrdx : 1 ≤ rdx)
    (hres : s.syscallMapFromUsToProcess table (r * 0x1000) rdi rsi rdx = .ok res)
    (hret : res.rdx ≠ 0) :
    Shares r q rsi rdx res.rdx s res.machine ↔
      ∃ f₀, PagesAgree s r q rsi rdx p.currentBrk f₀ := by
  have hpos : rdx ≠ 0 := Nat.ne_of_gt hrdx
  have hfirst : 0 * 0x1000 < rsi % 0x1000 + rdx := by
    rw [Nat.zero_mul]
    exact Nat.add_pos_right _ hrdx
  rcases Nat.lt_or_ge (2 ^ 48 - 0x1000) rdx with hlarge | hsize
  · exact shares_iff_of_large hhole hlarge
  obtain ⟨huser, haddr, hmap⟩ :=
    mapFromUs_mapped htarget hbrk (pagesOf_lt_of_le hsize) hres hret
  rw [haddr]
  have hsame := same_iff (r := r) (a := rsi) hmap hbrk hpos hsize
  have hphys : ∀ f₀ fl, translate s.mem r (pageAt rsi 0) = some (f₀, fl) →
      s.virtToPhys (rsi &&& vmm4kPermMask) (r * 0x1000) / 0x1000 = f₀ := fun f₀ fl hf => by
    rw [virtToPhys_first hs ht hf, Nat.mul_div_cancel _ (by decide)]
  constructor
  · rintro ⟨hbytes, hframes⟩
    have hpages := hsame.1 hbytes
    obtain ⟨f₀, fl, hf, -⟩ := hpages 0 hfirst
    have hframe := hphys f₀ fl hf
    rw [hframe] at hpages
    refine ⟨f₀, ⟨fl, hf⟩, hpages, fun i hi _ hnone => ?_⟩
    have hu := (user_iff hmap).1 hframes i hi hnone
    rwa [frameAt, hframe] at hu
  · rintro ⟨f₀, ⟨fl, hf⟩, hpages, hlast⟩
    have hframe := hphys f₀ fl hf
    have hphys' := virtToPhys_first hs ht hf
    rw [← hframe] at hpages hlast
    refine ⟨hsame.2 hpages, (user_iff hmap).2 fun i hi hnone => ?_⟩
    rcases Nat.lt_or_ge i (rdx / 0x1000) with hseen | hunseen
    · refine userFrame_of_range hs.root_lt hsmall huser ?_
      rw [hphys']
      exact lt_rangePages (hsize.trans (Nat.sub_le _ _)) hseen
    · exact hlast i hi hunseen hnone

/-- A process with the address space of `onePage`, and its break at `0x10000000000`. -/
def onlyProcess : ProcTable Process := ProcTable.init.addProcess ⟨0x1000, 0x10000000000, 0, 0⟩

theorem brkOk_onePage : BrkOk (onePage 0xff) ⟨0x1000, 0x10000000000, 0, 0⟩ 1 where
  cr3 := rfl
  wellFormed := userSpace_onePage.toWellFormed
  aligned := by decide
  lt := by decide

/-- The page of `onePage` is shared. -/
theorem mapFromUs_shares_onePage :
    ∃ res, (onePage 0xff).syscallMapFromUsToProcess onlyProcess 0x1000 0 0x7ffffffff000 0x1000 =
      .ok res ∧ res.rdx ≠ 0 ∧
      Shares 1 1 0x7ffffffff000 0x1000 res.rdx (onePage 0xff) res.machine := by
  refine exists_ok_and MapResult.rdx 0x10000000000 (by decide +kernel) fun res hres hret => ?_
  have hne : res.rdx ≠ 0 := by
    rw [hret]
    decide
  have hone : pagesOf 0x1000 = 1 := rfl
  have hfirst : translate (onePage 0xff).mem 1 (pageAt 0x7ffffffff000 0) = some (7, 7) := by
    decide +kernel
  refine ⟨hne, (@mapFromUs_shares_iff (onePage 0xff) 1 1
    ⟨0x1000, 0x10000000000, 0, 0⟩ onlyProcess 0 0x7ffffffff000 0x1000 0 res
    userSpace_onePage.toWellFormed tablesMapped_onePage (smallPages_onePage 0xff)
    ⟨pageAt 0x10000000000 0, by decide +kernel⟩ rfl brkOk_onePage (by decide) hres hne).2
    ⟨7, ⟨7, hfirst⟩, fun i hi => ?_, fun i hi hle => ?_⟩⟩
  · obtain rfl : i = 0 := by omega
    exact ⟨7, 7, hfirst, Or.inr ⟨by decide +kernel, by decide, rfl⟩⟩
  · rw [hone] at hi
    omega

/-- **A buffer is not shared.**  A buffer of a page and a byte ends in a page with another frame,
but the frame behind the first one is mapped; and 16 bytes at the beginning of the upper half are
mapped, which the caller may not see. -/
theorem mapFromUs_not_shares :
    (∃ res, (onePage 0xff).syscallMapFromUsToProcess onlyProcess 0x1000 0 0x7ffffffff000 0x1001 =
      .ok res ∧ res.rdx = 0x10000000000 ∧
      ¬ Shares 1 1 0x7ffffffff000 0x1001 0x10000000000 (onePage 0xff) res.machine) ∧
    ∃ res, (onePage 0xff).syscallMapFromUsToProcess onlyProcess 0x1000 0 0x800000000000 16 =
      .ok res ∧ res.rdx = 0x10000000000 ∧
      translate res.machine.mem 1 (pageAt 0x10000000000 0) = some (0, 7) ∧
      translate (onePage 0xff).mem 1 (pageAt 0x800000000000 0) = some (0, 0x83) := by
  constructor
  · refine exists_ok_and (fun res => (res.rdx, res.machine.toPhys 1 0x10000001000))
      (0x10000000000, some 0x8000) (by decide +kernel) fun res _ h => ?_
    obtain ⟨hret, hphys⟩ := Prod.mk.inj h
    refine ⟨hret, fun hs => ?_⟩
    obtain ⟨x, hx, hx'⟩ := hs.same 0x1000 (by decide)
    have hother : (onePage 0xff).toPhys 1 0x800000000000 = some 0 := by decide +kernel
    cases hx.symm.trans hother
    cases hx'.symm.trans hphys
  · refine exists_ok_and
      (fun res => (res.rdx, translate res.machine.mem 1 (pageAt 0x10000000000 0)))
      (0x10000000000, some (0, 7)) (by decide +kernel) fun res _ h => ?_
    obtain ⟨hret, htr⟩ := Prod.mk.inj h
    exact ⟨hret, htr, by decide +kernel⟩

end Machine

end DripOS
