import DripOS.Mm.Access
import DripOS.Mm.Fork

/-!
# Memory types of pages

`vmm_set_pat_pages` of `src/mm/vmm.c` sets the bits PWT, PCD and PAT of the entries of a range of
pages.  It looks up the first address of the range in every round, while it walks to the current one
without a look at the present bits.  The bits are added, and never cleared.  `PatExact` says what
the function is for.

* `vmmSetPatPages_done` : in a range whose pages all have tables, the bits are added to the entries;
* `vmmSetPatPages_exact_iff` : **when the result is exact**;
* `vmmSetPatPages_not_exact` : bits stay set, and physical page 0 is written for a page without
  tables.
-/

namespace DripOS

open Nat

/-- The bits that `vmm_set_pat_pages` adds to an entry. -/
def patBits (patEntry : ℕ) : ℕ :=
  let bit1 := if patEntry &&& (1 <<< 0) = 1 <<< 0 then 1 else 0
  let bit2 := if patEntry &&& (1 <<< 1) = 1 <<< 1 then 1 else 0
  let bit3 := if patEntry &&& (1 <<< 2) = 1 <<< 2 then 1 else 0
  (bit1 <<< 3) ||| (bit2 <<< 4) ||| (bit3 <<< 7)

namespace Machine

variable (s : Machine)

/-- One round of the loop of `vmm_set_pat_pages`. -/
def vmmSetPatPage (virt p4 patEntry curVirt : ℕ) : Machine :=
  let p4Offset := getHigherHalf p4
  let offs := vmmVirtToOffs curVirt
  -- the first address of the range, and not the current one
  if s.virtToPhys virt p4 ≠ notMapped then
    let p3 := s.traversePageTable p4Offset offs.p4Off
    if p3 ≠ 0 then
      let p2 := s.traversePageTable p3 offs.p3Off
      if p2 ≠ 0 then
        let p1 := s.traversePageTable p2 offs.p2Off
        let curData := s.getEntry p1 offs.p1Off
        s.setEntry p1 offs.p1Off (curData ||| patBits patEntry)
      else s
    else s
  else s

/-- `vmm_set_pat_pages`. -/
def vmmSetPatPages (virt p4 : ℕ) : (count patEntry : ℕ) → Machine
  | 0, _ => s
  | page + 1, patEntry => (vmmSetPatPages virt p4 page patEntry).vmmSetPatPage virt p4 patEntry
      ((virt + page * 0x1000) % 2 ^ 64)

end Machine

/-! ### The bits -/

theorem and_bit_iff {n i : ℕ} : n &&& (1 <<< i) = 1 <<< i ↔ n.testBit i = true := by
  rw [one_shiftLeft, and_two_pow]
  cases n.testBit i with
  | false => simp [(Nat.two_pow_pos i).ne]
  | true => simp

theorem testBit_patBits (patEntry b : ℕ) : (patBits patEntry).testBit b =
    ((b == 3 && patEntry.testBit 0) || (b == 4 && patEntry.testBit 1) ||
      (b == 7 && patEntry.testBit 2)) := by
  have hbit : ∀ (c : Bool) (k : ℕ), ((if c = true then 1 else 0) <<< k).testBit b = (b == k && c) :=
    fun c k => by
      cases c with
      | false => simp
      | true =>
        rw [if_pos rfl, one_shiftLeft, testBit_two_pow, Bool.and_true]
        exact Bool.eq_iff_iff.2 (by simpa using eq_comm)
  simp only [patBits, and_bit_iff, testBit_lor, hbit]

theorem patBits_lt (patEntry : ℕ) : patBits patEntry < 0x1000 := by
  refine lt_pow_two_of_testBit (n := 12) _ fun b hb => ?_
  rw [testBit_patBits]
  have h3 : (b == 3) = false := by simp; omega
  have h4 : (b == 4) = false := by simp; omega
  have h7 : (b == 7) = false := by simp; omega
  rw [h3, h4, h7]
  rfl

theorem entryFrame_or_patBits (e patEntry : ℕ) :
    entryFrame (e ||| patBits patEntry) = entryFrame e := by
  rw [entryFrame_eq, entryFrame_eq, or_div_two_pow (n := 12),
    div_eq_of_lt (patBits_lt patEntry), or_zero]

theorem present_or_patBits (e patEntry : ℕ) : Present (e ||| patBits patEntry) ↔ Present e := by
  have hbit : ∀ n, Present n ↔ n.testBit 0 = true := fun n => by
    rw [present_iff, testBit_zero, decide_eq_true_iff]
  rw [hbit, hbit, testBit_lor, testBit_patBits]
  simp

/-- Bit `b` of an entry `e` with the memory type `patEntry`: bit 3 is PWT, 4 is PCD, and 7 is PAT.
-/
def wantedBit (patEntry e b : ℕ) : Bool :=
  if b = 3 then patEntry.testBit 0
  else if b = 4 then patEntry.testBit 1
  else if b = 7 then patEntry.testBit 2
  else e.testBit b

/-- The entry has no bits of a memory type that `patEntry` has not. -/
def PatFits (patEntry e : ℕ) : Prop :=
  ∀ b, b = 3 ∨ b = 4 ∨ b = 7 → e.testBit b = true → (patBits patEntry).testBit b = true

theorem wantedBit_of_pat {patEntry e b : ℕ} (hb : b = 3 ∨ b = 4 ∨ b = 7) :
    wantedBit patEntry e b = (patBits patEntry).testBit b := by
  rw [testBit_patBits]
  rcases hb with rfl | rfl | rfl <;> simp [wantedBit]

theorem or_patBits_wanted_iff {patEntry e : ℕ} :
    (∀ b, (e ||| patBits patEntry).testBit b = wantedBit patEntry e b) ↔ PatFits patEntry e := by
  constructor
  · intro h b hb he
    rw [← wantedBit_of_pat hb, ← h b, testBit_lor, he, Bool.true_or]
  · intro h b
    rw [testBit_lor]
    by_cases hb : b = 3 ∨ b = 4 ∨ b = 7
    · rw [wantedBit_of_pat hb]
      cases he : e.testBit b with
      | false => rfl
      | true => rw [h b hb he, Bool.true_or]
    · obtain ⟨n3, hb⟩ := not_or.1 hb
      obtain ⟨n4, n7⟩ := not_or.1 hb
      rw [wantedBit, if_neg n3, if_neg n4, if_neg n7, testBit_patBits]
      simp [n3, n4, n7]

/-! ### What the function is for -/

/-- Entry `i` of the table in frame `t` is the 4 KiB entry of the page `v`. -/
def LeafSlot (mem : ℕ → Fin 512 → ℕ) (r : ℕ) (v : PtOff) (t : ℕ) (i : Fin 512) : Prop :=
  pageWalk mem r [v.p2Off, v.p3Off, v.p4Off] = some t ∧ i = v.p1Off

instance (mem : ℕ → Fin 512 → ℕ) (r : ℕ) (v : PtOff) (t : ℕ) (i : Fin 512) :
    Decidable (LeafSlot mem r v t i) := inferInstanceAs (Decidable (_ ∧ _))

namespace Machine

variable {s s' : Machine} {r virt count k patEntry t : ℕ} {i : Fin 512}

/-- The entries of the mapped pages get the memory type, and nothing else is written. -/
structure PatExact (r virt count patEntry : ℕ) (s s' : Machine) : Prop where
  entry : ∀ k < count, ∀ t i, LeafSlot s.mem r (pageAt virt k) t i → Present (s.mem t i) →
    ∀ b, (s'.mem t i).testBit b = wantedBit patEntry (s.mem t i) b
  frame : ∀ t i, (∀ k < count, LeafSlot s.mem r (pageAt virt k) t i → ¬ Present (s.mem t i)) →
    s'.mem t i = s.mem t i

/-- The bits were added to the entries of the first `k` pages. -/
structure PatDone (r virt patEntry : ℕ) (s : Machine) (k : ℕ) (s' : Machine) : Prop where
  slot : ∀ j < k, ∀ t i, LeafSlot s.mem r (pageAt virt j) t i →
    s'.mem t i = s.mem t i ||| patBits patEntry
  other : ∀ t i, (∀ j < k, ¬ LeafSlot s.mem r (pageAt virt j) t i) → s'.mem t i = s.mem t i

namespace PatDone

variable (h : PatDone r virt patEntry s k s')
include h

/-- Tables of the upper levels are not changed. -/
theorem upper (hok : TreeOk s r) {π : List (Fin 512)} (hπ : pageWalk s.mem r π = some t)
    (hlen : π.length ≠ 3) (i : Fin 512) :
    s'.mem t i = s.mem t i := by
  refine h.other t i fun j _ hslot => hlen ?_
  rw [hok.distinct _ _ _ hπ hslot.1]
  rfl

theorem walk (hok : TreeOk s r) (π : List (Fin 512)) :
    pageWalk s'.mem r π = pageWalk s.mem r π := by
  refine TableTree.walk_congr (fun π t i hπ => ?_) π
  by_cases hlen : π.length = 3
  · -- entries of the last level have no children
    rw [hlen]
    rfl
  · rw [h.upper hok hπ hlen]

/-- An entry keeps its frame and its present bit. -/
theorem leaf (t : ℕ) (i : Fin 512) :
    entryFrame (s'.mem t i) = entryFrame (s.mem t i) ∧
      (Present (s'.mem t i) ↔ Present (s.mem t i)) := by
  by_cases hslot : ∃ j < k, LeafSlot s.mem r (pageAt virt j) t i
  · obtain ⟨j, hj, hslot⟩ := hslot
    rw [h.slot j hj t i hslot]
    exact ⟨entryFrame_or_patBits _ _, present_or_patBits _ _⟩
  · rw [h.other t i fun j hj hs => hslot ⟨j, hj, hs⟩]
    exact ⟨rfl, Iff.rfl⟩

theorem virtToPhys (hok : TreeOk s r) {u : ℕ} {v : PtOff} (hu : vmmVirtToOffs u = v)
    (hv : pageWalk s.mem r v.tables = some t) :
    s'.virtToPhys u (r * 0x1000) = s.virtToPhys u (r * 0x1000) := by
  obtain ⟨t3, t2, h3, h2, rfl, rfl, rfl, -⟩ := pageWalk_entries hv
  have hroot : pageWalk s.mem r [] = some r := rfl
  obtain ⟨hframe, hpresent⟩ := h.leaf (entryFrame (s.mem (entryFrame (s.mem (entryFrame
    (s.mem r v.p4Off)) v.p3Off)) v.p2Off)) v.p1Off
  rw [virtToPhys_eq hok.root_lt hu, virtToPhys_eq hok.root_lt hu]
  dsimp only
  rw [h.upper hok hroot (by simp), h.upper hok h3 (by simp), h.upper hok h2 (by simp), hframe]
  simp only [hpresent]

theorem succ {s'' : Machine} (ht : pageWalk s.mem r (pageAt virt k).tables = some t)
    (hmem : ∀ f i, s''.mem f i = if f = t ∧ i = (pageAt virt k).p1Off
      then s'.mem f i ||| patBits patEntry else s'.mem f i) :
    PatDone r virt patEntry s (k + 1) s'' := by
  have hor (e : ℕ) : e ||| patBits patEntry ||| patBits patEntry = e ||| patBits patEntry := by
    rw [Nat.or_assoc, Nat.or_self]
  constructor
  · intro j hj f i hslot
    rw [hmem]
    rcases Nat.lt_succ_iff_lt_or_eq.1 hj with hj | rfl
    · rw [h.slot j hj f i hslot, hor, ite_self]
    · -- the page may have been visited before
      have hf : f = t := Option.some.inj (hslot.1.symm.trans ht)
      rw [if_pos ⟨hf, hslot.2⟩]
      by_cases hold : ∃ j' < j, LeafSlot s.mem r (pageAt virt j') f i
      · obtain ⟨j', hj', hs⟩ := hold
        rw [h.slot j' hj' f i hs, hor]
      · rw [h.other f i fun j' hj' hs => hold ⟨j', hj', hs⟩]
  · intro f i hnone
    rw [hmem, if_neg, h.other f i fun j hj => hnone j (lt_succ_of_lt hj)]
    rintro ⟨rfl, rfl⟩
    exact hnone k k.lt_succ_self ⟨ht, rfl⟩

end PatDone

/-! ### The loop -/

theorem getHigherHalf_ne_zero {t : ℕ} (h : Followed t) : getHigherHalf (t * 0x1000) ≠ 0 := by
  unfold Followed at h
  change (t * 0x1000 + normalVmaOffset) % 2 ^ 64 ≠ 0
  unfold normalVmaOffset
  omega

/-- A round that finds the first address writes the entry that the walk leads to. -/
theorem vmmSetPatPage_of_found {p4 cur : ℕ} {v : PtOff} {p3 p2 p1 : Ptr}
    (hfound : s.virtToPhys virt p4 ≠ notMapped) (hcur : vmmVirtToOffs cur = v)
    (h3 : s.traversePageTable (getHigherHalf p4) v.p4Off = p3) (hn3 : p3 ≠ 0)
    (h2 : s.traversePageTable p3 v.p3Off = p2) (hn2 : p2 ≠ 0)
    (h1 : s.traversePageTable p2 v.p2Off = p1) :
    s.vmmSetPatPage virt p4 patEntry cur =
      s.setEntry p1 v.p1Off (s.getEntry p1 v.p1Off ||| patBits patEntry) := by
  unfold vmmSetPatPage
  simp only [hfound, hcur, h3, hn3, h2, hn2, h1, ne_eq, not_false_eq_true, if_true]

/-- A round that finds the first address adds the bits to the entry of a page with tables. -/
theorem mem_vmmSetPatPage {cur : ℕ} {v : PtOff} (hr : r < 2 ^ 52) (hd : TablesMapped s.mem r)
    (hfound : s.virtToPhys virt (r * 0x1000) ≠ notMapped) (hcur : vmmVirtToOffs cur = v)
    (ht : pageWalk s.mem r v.tables = some t) (f : ℕ) (i : Fin 512) :
    (s.vmmSetPatPage virt (r * 0x1000) patEntry cur).mem f i =
      if f = t ∧ i = v.p1Off then s.mem f i ||| patBits patEntry else s.mem f i := by
  obtain ⟨t3, t2, h3, h2, hf3, hf2, hf1, -⟩ := pageWalk_entries ht
  have hroot : s.traversePageTable (getHigherHalf (r * 0x1000)) v.p4Off =
      getHigherHalf (t3 * 0x1000) := by
    rw [traversePageTable_eq, entries, tableFrame_getHigherHalf hr, hf3]
  have hlt : ∀ {π : List (Fin 512)} {t : ℕ}, pageWalk s.mem r π = some t → t < 2 ^ 52 :=
    fun h => lt_of_pageWalk hr h
  have hp2 : s.traversePageTable (getHigherHalf (t3 * 0x1000)) v.p3Off =
      getHigherHalf (t2 * 0x1000) := by
    rw [traversePageTable_eq, entries, tableFrame_getHigherHalf (hlt h3), hf2]
  have hp1 : s.traversePageTable (getHigherHalf (t2 * 0x1000)) v.p2Off =
      getHigherHalf (t * 0x1000) := by
    rw [traversePageTable_eq, entries, tableFrame_getHigherHalf (hlt h2), hf1]
  have hn3 := getHigherHalf_ne_zero (hd _ t3 (List.cons_ne_nil _ _) h3)
  have hn2 := getHigherHalf_ne_zero (hd _ t2 (List.cons_ne_nil _ _) h2)
  rw [vmmSetPatPage_of_found hfound hcur hroot hn3 hp2 hn2 hp1, mem_setEntry, getEntry, entries,
    tableFrame_getHigherHalf (hlt ht)]
  split_ifs with h
  · rw [h.1, h.2]
  · rfl

/-- **In a range of pages with tables, the bits are added to the entries.** -/
theorem vmmSetPatPages_done (hok : TreeOk s r) (hd : TablesMapped s.mem r)
    (hfound : s.virtToPhys virt (r * 0x1000) ≠ notMapped)
    (htab : ∀ k < count, ∃ t, pageWalk s.mem r (pageAt virt k).tables = some t) :
    PatDone r virt patEntry s count (s.vmmSetPatPages virt (r * 0x1000) count patEntry) := by
  induction count with
  | zero => exact ⟨fun j hj => absurd hj j.not_lt_zero, fun _ _ _ => rfl⟩
  | succ k ih =>
    have h := ih fun j hj => htab j (lt_succ_of_lt hj)
    obtain ⟨t, ht⟩ := htab k k.lt_succ_self
    obtain ⟨t0, ht0⟩ := htab 0 k.succ_pos
    have hfirst : vmmVirtToOffs virt = pageAt virt 0 := by
      rw [pageAt, vmmVirtToOffs_eq_iff]
      omega
    rw [vmmSetPatPages]
    generalize hs' : s.vmmSetPatPages virt (r * 0x1000) k patEntry = s' at h
    have hd' : TablesMapped s'.mem r := fun π t hne hπ => hd π t hne ((h.walk hok π).symm.trans hπ)
    refine h.succ ht (mem_vmmSetPatPage hok.root_lt hd' ?_ rfl ((h.walk hok _).trans ht))
    rw [h.virtToPhys hok hfirst ht0]
    exact hfound

/-- When the first address is not found, nothing happens. -/
theorem vmmSetPatPages_of_notMapped (h : s.virtToPhys virt (r * 0x1000) = notMapped) :
    s.vmmSetPatPages virt (r * 0x1000) count patEntry = s := by
  induction count with
  | zero => rfl
  | succ k ih =>
    rw [vmmSetPatPages, ih, vmmSetPatPage]
    rw [if_neg (not_not.2 h)]

/-- **When `vmm_set_pat_pages` is exact.**  If the first address is not mapped, all entries must
have their memory type already.  If it is mapped and all pages have tables, the entries of mapped
pages must not have other bits set, and those of unmapped pages must have all bits set. -/
theorem vmmSetPatPages_exact_iff (hok : TreeOk s r) (hd : TablesMapped s.mem r)
    (virt count patEntry : ℕ) :
    (s.virtToPhys virt (r * 0x1000) = notMapped →
      (PatExact r virt count patEntry s (s.vmmSetPatPages virt (r * 0x1000) count patEntry) ↔
        ∀ k < count, ∀ t i, LeafSlot s.mem r (pageAt virt k) t i → Present (s.mem t i) →
          ∀ b, (s.mem t i).testBit b = wantedBit patEntry (s.mem t i) b)) ∧
    (s.virtToPhys virt (r * 0x1000) ≠ notMapped →
      (∀ k < count, ∃ t, pageWalk s.mem r
        [(pageAt virt k).p2Off, (pageAt virt k).p3Off, (pageAt virt k).p4Off] = some t) →
      (PatExact r virt count patEntry s (s.vmmSetPatPages virt (r * 0x1000) count patEntry) ↔
        ∀ k < count, ∀ t i, LeafSlot s.mem r (pageAt virt k) t i →
          if Present (s.mem t i) then PatFits patEntry (s.mem t i)
          else s.mem t i ||| patBits patEntry = s.mem t i)) := by
  constructor
  · intro h
    rw [vmmSetPatPages_of_notMapped h]
    exact ⟨fun he => he.entry, fun h => ⟨h, fun _ _ _ => rfl⟩⟩
  · intro hfound htab
    have hdone := @vmmSetPatPages_done s r virt count patEntry hok hd hfound htab
    constructor
    · intro h k hk t i hslot
      split_ifs with hp
      · have hentry := h.entry k hk t i hslot hp
        rw [hdone.slot k hk t i hslot] at hentry
        exact or_patBits_wanted_iff.1 hentry
      · rw [← hdone.slot k hk t i hslot]
        exact h.frame t i fun _ _ _ => hp
    · intro h
      refine ⟨fun k hk t i hslot hp => ?_, fun t i hnone => ?_⟩
      · have hfits := h k hk t i hslot
        rw [if_pos hp] at hfits
        rw [hdone.slot k hk t i hslot]
        exact or_patBits_wanted_iff.2 hfits
      · by_cases hslot : ∃ k < count, LeafSlot s.mem r (pageAt virt k) t i
        · obtain ⟨k, hk, hslot⟩ := hslot
          have hsame := h k hk t i hslot
          rw [if_neg (hnone k hk hslot)] at hsame
          rw [hdone.slot k hk t i hslot, hsame]
        · exact hdone.other t i fun k hk hs => hslot ⟨k, hk, hs⟩

theorem tablesMapped_onePage : TablesMapped (onePage 0xff).mem 1 := by
  intro π t _ ht
  have h : ∀ x ∈ onePageTables, Followed x.2 := by decide
  exact h _ ((describes_onePage 0xff).mem ht)

/-- The mapped page of `onePage`. -/
theorem vmmSetPatPages_exact_onePage :
    (onePage 0xff).virtToPhys 0x7ffffffff000 0x1000 ≠ notMapped ∧
    PatExact 1 0x7ffffffff000 1 5 (onePage 0xff)
      ((onePage 0xff).vmmSetPatPages 0x7ffffffff000 0x1000 1 5) := by
  have hfound : (onePage 0xff).virtToPhys 0x7ffffffff000 0x1000 ≠ notMapped := by decide +kernel
  have hwalk : pageWalk (onePage 0xff).mem 1 (pageAt 0x7ffffffff000 0).tables = some 4 := by
    decide +kernel
  refine ⟨hfound, ((vmmSetPatPages_exact_iff (treeOk_onePage (by decide)) tablesMapped_onePage
    0x7ffffffff000 1 5).2 hfound fun k hk => ?_).2 fun k hk t i hslot => ?_⟩
  · rw [lt_one_iff.1 hk]
    exact ⟨4, hwalk⟩
  · rw [lt_one_iff.1 hk] at hslot
    obtain ⟨ht, rfl⟩ := hslot
    obtain rfl := Option.some.inj (ht.symm.trans hwalk)
    rintro b (rfl | rfl | rfl) hb
    · cases hb
    · cases hb
    · cases hb

/-- The machine `onePage`, with memory type 7 for its page. -/
def typedPage : Machine :=
  { onePage 0xff with
    mem := fun f i => if f = 4 ∧ i = 511 then 0x709f else (onePage 0xff).mem f i }

/-- The machine `onePage` without the page of 2 MiB. -/
def lowerOnly : Machine :=
  { onePage 0xff with mem := fun f i => if f = 6 then 0 else (onePage 0xff).mem f i }

/-- **`vmm_set_pat_pages` is not exact.**  Type 0 does not replace type 7, and type 1 for a page
without a table is written into physical page 0. -/
theorem vmmSetPatPages_not_exact :
    ¬ PatExact 1 0x7ffffffff000 1 0 typedPage
      (typedPage.vmmSetPatPages 0x7ffffffff000 0x1000 1 0) ∧
    translate lowerOnly.mem 1 (pageAt 0x7ffffffff000 1) = none ∧ lowerOnly.mem 0 0 = 0 ∧
    (lowerOnly.vmmSetPatPages 0x7ffffffff000 0x1000 2 1).mem 0 0 = 8 ∧
    ¬ PatExact 1 0x7ffffffff000 2 1 lowerOnly
      (lowerOnly.vmmSetPatPages 0x7ffffffff000 0x1000 2 1) := by
  have hzero : (lowerOnly.vmmSetPatPages 0x7ffffffff000 0x1000 2 1).mem 0 0 = 8 := by
    decide +kernel
  refine ⟨fun h => ?_, by decide +kernel, by decide +kernel, hzero, fun h => ?_⟩
  · have hbit := h.entry 0 Nat.one_pos 4 511 (by decide +kernel) (by decide +kernel) 3
    revert hbit
    decide +kernel
  · have hframe := h.frame 0 0 (by decide +kernel)
    revert hframe
    decide +kernel

end Machine

end DripOS
