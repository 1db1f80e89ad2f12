import DripOS.Klibc.Stdlib
import DripOS.Mm.Access

/-!
# The guard pages of the kernel heap

`kmalloc` and `kfree` of `src/klibc/stdlib.c` with the two pages around a block that they take out
of the direct map and put back.  The size of a block and its signature are in the first of them;
all accesses go through the page tables of the current address space.

A block of `size` bytes has `(size + 0x2fff) / 0x1000` pages.  `Guarding` says what `kmalloc` has
done so far: the tables are those of before, and so is the translation of all pages but the guard
pages.  `LiveBlock` says what holds for a block until it is released, whatever else happens in the
machine; it is all that `kfree` needs.

* `Machine.kmallocGuarded_spec` : `kmalloc` takes a free block and leaves it guarded;
* `Machine.kfreeGuarded_live` : `kfree` of a live block of at least one byte returns its pages;
* `Machine.kfreeGuarded_spec` : hence `kfree` right after `kmalloc` restores the state;
* `Machine.kfreeGuarded_empty` : the address of an empty block is its upper guard page, and `kfree`
  stops at its assertion;
* `Machine.mallocFree_iff` : hence a block can be taken and released again exactly when it is not
  empty and there is room for it.
-/

namespace DripOS

open TableTree Pmm Option

namespace Machine

/-! ### The functions -/

section Functions

variable (s : Machine)

/-- Read the word at the address `p`, with `base` the value of `cr3`. -/
def loadWord (base p : ℕ) : Except Halt ℕ :=
  match s.toPhys (base / 0x1000) p with
  | some a => .ok (s.readWord (getHigherHalf a))
  | none => .error .fault

/-- Write the word at the address `p`. -/
def storeWord (base p x : ℕ) : Except Halt Machine :=
  match s.toPhys (base / 0x1000) p with
  | some a => .ok (s.writeWord (getHigherHalf a) x)
  | none => .error .fault

/-- `vmm_map`. -/
def vmmMap (base phys virt count perms : ℕ) : Except Halt (ℕ × Machine) :=
  s.vmmMapPages phys virt base count perms

/-- `vmm_unmap`. -/
def vmmUnmap (base virt count : ℕ) : Except Halt (ℕ × Machine) := s.vmmUnmapPages virt base count

/-- `kmalloc`. -/
def kmallocGuarded (base size : ℕ) : Except Halt (Ptr × Machine) := do
  let phys ← s.pmmAlloc ((size + 0x2000) % 2 ^ 64)
  let sizeData := (phys.1 + normalVmaOffset) % 2 ^ 64
  let pageCount := (size + 0x2000 + 0x1000 - 1) % 2 ^ 64 / 0x1000
  let lastPage := (sizeData + (pageCount + (2 ^ 64 - 1)) * 0x1000) % 2 ^ 64
  -- unmap the top
  let r ← phys.2.vmmUnmap base lastPage 1
  let s ← r.2.storeWord base sizeData ((size + 0x2000) % 2 ^ 64)
  let s ← s.storeWord base ((sizeData + 8) % 2 ^ 64) mallocSignature
  -- unmap the size data
  let r ← s.vmmUnmap base sizeData 1
  if sizeData % 0x1000 ≠ 0 then .error .fault
  else pure ((sizeData + 0x1000) % 2 ^ 64, r.2)

/-- `kfree`. -/
def kfreeGuarded (base addr : ℕ) : Except Halt Machine :=
  if addr % 0x1000 ≠ 0 then .error .fault
  else if s.isMapped base addr = false then .error .fault
  else do
    let sizeData := (addr + (2 ^ 64 - 0x1000)) % 2 ^ 64
    let signature := (addr + (2 ^ 64 - 0xff8)) % 2 ^ 64
    let r ← s.vmmMap base (getLowerHalf sizeData) sizeData 1 (vmmPresent ||| vmmWrite)
    let size ← r.2.loadWord base sizeData
    let pageCount := (size + (2 ^ 64 - 0x1000) + 0x1000 - 1) % 2 ^ 64 / 0x1000
    let lastPage := (addr + (pageCount + (2 ^ 64 - 1)) * 0x1000) % 2 ^ 64
    let r ← r.2.vmmMap base (getLowerHalf lastPage) lastPage 1 (vmmPresent ||| vmmWrite)
    let sig ← r.2.loadWord base signature
    if sig ≠ mallocSignature then .error .fault
    else
      let phys := r.2.virtToPhys sizeData base
      if phys ≠ notMapped then do
        let size ← r.2.loadWord base sizeData
        r.2.pmmUnalloc phys size
      else pure r.2

end Functions

/-! ### Pages whose table of the last level exists -/

section Leaf

variable {s : Machine} {r t virt : ℕ} {v : PtOff}

theorem vmmUnmapPage_of_walk (hr : r < 2 ^ 52) (hvirt : vmmVirtToOffs virt = v)
    (h : pageWalk s.mem r v.tables = some t)
    (hm : translate s.mem r v ≠ none) (ret : ℕ) :
    ∃ table, tableFrame table = t ∧
      vmmUnmapPage (r * 0x1000) virt (ret, s) = .ok (ret, s.setEntry table v.p1Off 0) := by
  obtain ⟨pt, hget, rfl⟩ := vmmGetTable_of_walk hr h
  refine ⟨pt.p1, rfl, ?_⟩
  unfold vmmUnmapPage
  dsimp only
  rw [hvirt, hget, ok_bind]
  exact if_pos ((present_entries_iff h).2 (isSome_iff_ne_none.2 hm))

theorem vmmMapPage_of_walk (hr : r < 2 ^ 52) (hvirt : vmmVirtToOffs virt = v)
    (h : pageWalk s.mem r v.tables = some t)
    (hm : translate s.mem r v = none) (perms phys ret : ℕ) :
    ∃ table, tableFrame table = t ∧
      vmmMapPage (r * 0x1000) perms phys virt (ret, s) =
        .ok (ret, s.setEntry table v.p1Off (phys ||| perms)) := by
  obtain ⟨pt, hget, rfl⟩ := vmmGetTable_of_walk hr h
  refine ⟨pt.p1, rfl, ?_⟩
  unfold vmmMapPage
  dsimp only
  rw [hvirt, hget, ok_bind]
  refine if_pos (not_not.1 fun hp => ?_)
  have := (present_entries_iff h).1 hp
  rw [hm] at this
  cases this

theorem virtToPhys_of_table (hr : r < 2 ^ 52) (ht : TablesMapped s.mem r)
    (hvirt : vmmVirtToOffs virt = v)
    (h : pageWalk s.mem r v.tables = some t) :
    s.virtToPhys virt (r * 0x1000) =
      ((translate s.mem r v).map fun page => page.1 * 0x1000 + virt % 0x1000).getD notMapped := by
  rw [translate_eq, h]
  obtain ⟨t3, t2, h3, h2, rfl, rfl, rfl, hh⟩ := pageWalk_entries h
  have hd3 : Followed _ := ht _ _ (by simp) h3
  have hd2 : Followed _ := ht _ _ (by simp) h2
  have hd1 : Followed _ := ht _ _ (by simp) h
  rw [virtToPhys_eq hr hvirt]
  dsimp only
  rw [if_pos hd3, if_neg hh]
  by_cases hp : Present (s.mem (entryFrame (s.mem (entryFrame (s.mem (entryFrame
      (s.mem r v.p4Off)) v.p3Off)) v.p2Off)) v.p1Off)
  · rw [if_pos ⟨hd2, hd1, hp⟩, leafOf, if_pos hp]
    rfl
  · rw [if_neg fun h => hp h.2.2, leafOf, if_neg hp]
    rfl

end Leaf

/-! ### The direct map -/

/-- The page of the direct map at which frame `f` is. -/
def directPage (f : ℕ) : PtOff := vmmVirtToOffs (getHigherHalf (f * 0x1000))

theorem vpn_directPage {f : ℕ} (hf : f < 2 ^ 35) : (directPage f).vpn = 2 ^ 35 + f := by
  rw [directPage, vpn_vmmVirtToOffs, getHigherHalf, normalVmaOffset]
  omega

theorem directPage_inj {f g : ℕ} (hf : f < 2 ^ 35) (hg : g < 2 ^ 35)
    (h : directPage f = directPage g) : f = g := by
  have := congrArg PtOff.vpn h
  rw [vpn_directPage hf, vpn_directPage hg] at this
  omega

theorem vmmVirtToOffs_wordPtr {f i : ℕ} (hi : i < 512) :
    vmmVirtToOffs (wordPtr f i) = directPage f := by
  rw [directPage, vmmVirtToOffs_eq_iff, wordPtr, getHigherHalf, normalVmaOffset]
  omega

/-- The address space with root `r` maps the free frames in its direct map, by entries of 4 KiB, as
`pmm_memory_setup` does. -/
structure KernelMap (s : Machine) (r : ℕ) : Prop where
  tree : TreeOk s r
  tables : TablesMapped s.mem r
  heap : HeapOk s
  free : ∀ f < s.pmm.bitmapMaxPage, ¬ s.pmm.Used f →
    (∃ t, pageWalk s.mem r
      [(directPage f).p2Off, (directPage f).p3Off, (directPage f).p4Off] = some t) ∧
    translate s.mem r (directPage f) = some (f, vmmPresent ||| vmmWrite)

theorem wordPtr_mod {f : ℕ} (hf : f < 2 ^ 35) : wordPtr f 0 % 0x1000 = 0 := by
  rw [wordPtr_eq hf, normalVmaOffset]
  omega

theorem directPage_ne {g : ℕ} (hf : f < 2 ^ 35) (hg : g < 2 ^ 35) (hne : f ≠ g) :
    directPage f ≠ directPage g := fun he => hne (directPage_inj hf hg he)

/-! ### What a step leaves alone -/

section Steps

/-- The tables stay, the pages outside of `V` are mapped as before, and the frames outside of `W`
that are no tables have their contents. -/
structure Alters (r : ℕ) (V : Set PtOff) (W : Set ℕ) (s s' : Machine) : Prop where
  walk : ∀ π, pageWalk s'.mem r π = pageWalk s.mem r π
  translate : ∀ v ∉ V, translate s'.mem r v = translate s.mem r v
  frame : ∀ f ∉ W, ¬ IsPageTable s.mem r f → s'.mem f = s.mem f

variable {s s' s'' : Machine} {r f t fl i : ℕ} {V V' : Set PtOff} {W W' : Set ℕ}

namespace Alters

variable (h : Alters r V W s s')
include h

theorem isPageTable : IsPageTable s'.mem r f ↔ IsPageTable s.mem r f :=
  exists_congr fun π => by rw [h.walk]

theorem trans (h' : Alters r V' W' s' s'') : Alters r (V ∪ V') (W ∪ W') s s'' where
  walk π := (h'.walk π).trans (h.walk π)
  translate v hv := (h'.translate v fun hm => hv (Or.inr hm)).trans
    (h.translate v fun hm => hv (Or.inl hm))
  frame f hf ht := (h'.frame f (fun hm => hf (Or.inr hm)) (mt h.isPageTable.1 ht)).trans
    (h.frame f (fun hm => hf (Or.inl hm)) ht)

theorem mono (hV : V ⊆ V') (hW : W ⊆ W') : Alters r V' W' s s' where
  walk := h.walk
  translate v hv := h.translate v fun hm => hv (hV hm)
  frame f hf ht := h.frame f (fun hm => hf (hW hm)) ht

theorem tree (hok : TreeOk s r) (hused : ∀ t, s.pmm.Used t → s'.pmm.Used t) : TreeOk s' r :=
  hok.congr h.walk fun t ⟨π, hπ⟩ => hused t (hok.used π t hπ)

theorem tables (ht : TablesMapped s.mem r) : TablesMapped s'.mem r :=
  fun π t hne hπ => ht π t hne ((h.walk π).symm.trans hπ)

end Alters

theorem Alters.setLeaf (hok : TreeOk s r) {v : PtOff} {table : Ptr} {e : ℕ}
    (ht : pageWalk s.mem r v.tables = some (tableFrame table))
    (he : Present e ∨ e = 0) :
    Alters r {v} ∅ s (s.setEntry table v.p1Off e) ∧
      DripOS.translate (s.setEntry table v.p1Off e).mem r v = leafOf e := by
  obtain ⟨htouch, htr⟩ := touch_setLeaf hok ht he
  have hwalk := @pageWalk_setLeaf s r table v e hok ht
  refine ⟨⟨hwalk, htouch.translate, fun f _ hf => htouch.frame f ?_⟩, htr⟩
  rintro ⟨π, hπ⟩
  exact hf ⟨π, (hwalk π).symm.trans hπ⟩

/-- **A page of the direct map is taken out.** -/
theorem vmmUnmap_direct (hok : TreeOk s r)
    (ht : pageWalk s.mem r (directPage f).tables =
      some t) (hpage : translate s.mem r (directPage f) ≠ none) :
    ∃ s', s.vmmUnmap (r * 0x1000) (wordPtr f 0) 1 = .ok (0, s') ∧ s'.pmm = s.pmm ∧
      Alters r {directPage f} ∅ s s' ∧ translate s'.mem r (directPage f) = none := by
  have hvirt : vmmVirtToOffs ((wordPtr f 0 + 0 * 0x1000) % 2 ^ 64) = directPage f := by
    rw [directPage, vmmVirtToOffs_eq_iff, wordPtr, getHigherHalf]
    omega
  obtain ⟨table, rfl, heq⟩ := vmmUnmapPage_of_walk hok.root_lt hvirt ht hpage 0
  obtain ⟨halters, htr⟩ := Alters.setLeaf hok ht (Or.inr rfl)
  refine ⟨s.setEntry table (directPage f).p1Off 0, ?_, rfl, halters, htr⟩
  unfold vmmUnmap vmmUnmapPages
  rw [forRange_succ, forRange_zero, ok_bind, heq]

/-- **A page of the direct map is put back**, or is there already. -/
theorem vmmMap_direct (hok : TreeOk s r) (hf : f < 2 ^ 35)
    (ht : pageWalk s.mem r (directPage f).tables = some t)
    (hpage : translate s.mem r (directPage f) = none ∨
      translate s.mem r (directPage f) = some (f, vmmPresent ||| vmmWrite)) :
    ∃ ret s', s.vmmMap (r * 0x1000) (f * 0x1000) (wordPtr f 0) 1 (vmmPresent ||| vmmWrite) =
        .ok (ret, s') ∧ s'.pmm = s.pmm ∧ Alters r {directPage f} ∅ s s' ∧
      translate s'.mem r (directPage f) = some (f, vmmPresent ||| vmmWrite) := by
  have hvirt : vmmVirtToOffs (((wordPtr f 0 &&& vmm4kPermMask) + 0 * 0x1000) % 2 ^ 64) =
      directPage f := by
    rw [pageAt_masked, directPage, pageAt, vmmVirtToOffs_eq_iff, wordPtr, getHigherHalf]
    omega
  have hphys : ((f * 0x1000 &&& vmm4kPermMask) + 0 * 0x1000) % 2 ^ 64 = f * 0x1000 := by
    rw [frameAt_masked, frameAt]
    omega
  have hone : s.vmmMap (r * 0x1000) (f * 0x1000) (wordPtr f 0) 1 (vmmPresent ||| vmmWrite) =
      vmmMapPage (r * 0x1000) (vmmPresent ||| vmmWrite) (f * 0x1000)
        (((wordPtr f 0 &&& vmm4kPermMask) + 0 * 0x1000) % 2 ^ 64) (0, s) := by
    unfold vmmMap vmmMapPages
    rw [forRange_succ, forRange_zero, ok_bind, hphys]
  rw [hone]
  rcases hpage with hnone | hsome
  · obtain ⟨table, rfl, heq⟩ := vmmMapPage_of_walk hok.root_lt hvirt ht hnone
      (vmmPresent ||| vmmWrite) (f * 0x1000) 0
    have hpresent : Present (f * 0x1000 ||| (vmmPresent ||| vmmWrite)) :=
      (present_or (by decide)).2 (by decide)
    obtain ⟨halters, htr⟩ := Alters.setLeaf hok ht (Or.inl hpresent)
    exact ⟨_, _, heq, rfl, halters, htr.trans (leafOf_frame (by omega) (by decide) (by decide))⟩
  · obtain ⟨pt, hget, rfl⟩ := vmmGetTable_of_walk hok.root_lt ht
    refine ⟨1, s, ?_, rfl, ⟨fun _ => rfl, fun _ _ => rfl, fun _ _ _ => rfl⟩, hsome⟩
    unfold vmmMapPage
    dsimp only
    rw [hvirt, hget, ok_bind]
    exact if_neg ((present_entries_iff ht).2 (by rw [hsome]; rfl))

section

variable (hf : f < 2 ^ 35) (hpage : translate s.mem r (directPage f) = some (f, fl))
include hf hpage

theorem toPhys_direct (hi : i < 512) :
    s.toPhys (r * 0x1000 / 0x1000) (wordPtr f i) = some (f * 0x1000 + 8 * i) ∧
      wordPtr f i = getHigherHalf (f * 0x1000 + 8 * i) := by
  have hoff : wordPtr f i % 0x1000 = 8 * i := by
    rw [wordPtr_eq hf, normalVmaOffset]
    omega
  constructor
  · rw [Nat.mul_div_cancel _ (by decide), toPhys, vmmVirtToOffs_wordPtr hi, hpage, map_some, hoff]
  · rw [wordPtr_eq hf, getHigherHalf, normalVmaOffset]
    omega

theorem loadWord_direct (hi : i < 512) :
    s.loadWord (r * 0x1000) (wordPtr f i) = .ok (s.mem f ⟨i, hi⟩) := by
  obtain ⟨hphys, hptr⟩ := toPhys_direct hf hpage hi
  rw [loadWord, hphys]
  dsimp only
  rw [← hptr, readWord_wordPtr hf hi]

theorem storeWord_direct (hnot : ¬ IsPageTable s.mem r f) (hi : i < 512) (x : ℕ) :
    s.storeWord (r * 0x1000) (wordPtr f i) x = .ok (s.writeWord (wordPtr f i) x) ∧
      Alters r ∅ {f} s (s.writeWord (wordPtr f i) x) := by
  obtain ⟨hphys, hptr⟩ := toPhys_direct hf hpage hi
  have hother := @mem_writeWord_of_ne s f i hf hi x
  have htable : ∀ t, IsPageTable s.mem r t → (s.writeWord (wordPtr f i) x).mem t = s.mem t := by
    rintro t ht
    refine hother ?_
    rintro rfl
    exact hnot ht
  constructor
  · rw [storeWord, hphys]
    dsimp only
    rw [← hptr]
  · exact ⟨pageWalk_congr htable, fun v _ => translate_congr htable v, fun g hg _ => hother hg⟩

end

theorem virtToPhys_direct (hok : TreeOk s r) (htables : TablesMapped s.mem r) (hf : f < 2 ^ 35)
    (ht : pageWalk s.mem r
      (directPage f).tables = some t) :
    (translate s.mem r (directPage f) = none →
        s.virtToPhys (wordPtr f 0) (r * 0x1000) = notMapped) ∧
      ∀ fl, translate s.mem r (directPage f) = some (f, fl) →
        s.virtToPhys (wordPtr f 0) (r * 0x1000) = f * 0x1000 := by
  rw [virtToPhys_of_table hok.root_lt htables (vmmVirtToOffs_wordPtr (by decide)) ht,
    wordPtr_mod hf]
  refine ⟨fun hnone => ?_, fun fl hsome => ?_⟩
  · rw [hnone]
    rfl
  · rw [hsome, map_some, getD_some, Nat.add_zero]

theorem getLowerHalf_wordPtr (hf : f < 2 ^ 35) : getLowerHalf (wordPtr f 0) = f * 0x1000 := by
  rw [wordPtr_eq hf, getLowerHalf, normalVmaOffset]
  omega

theorem wordPtr_next (ha : a + 1 < 2 ^ 35) :
    (wordPtr a 0 + 0x1000) % 2 ^ 64 = wordPtr (a + 1) 0 := by
  rw [wordPtr_eq (by omega), wordPtr_eq ha, normalVmaOffset]
  omega

theorem wordPtr_header (ha : a + 1 < 2 ^ 35) :
    (wordPtr (a + 1) 0 + (2 ^ 64 - 0x1000)) % 2 ^ 64 = wordPtr a 0 := by
  rw [wordPtr_eq ha, wordPtr_eq (by omega), normalVmaOffset]
  omega

end Steps

/-! ### A block with guard pages -/

/-- The `n` frames from `a` on were allocated since `s`; the pages `G` were taken out of the
address space with root `r`, and only frame `a` was written to. -/
structure Guarding (r a n : ℕ) (G : Set PtOff) (s s₁ : Machine) : Prop where
  alloc : Allocated s.pmm n a s₁.pmm
  walk : ∀ π, pageWalk s₁.mem r π = pageWalk s.mem r π
  guard : ∀ v ∈ G, translate s₁.mem r v = none
  outside : ∀ v ∉ G, translate s₁.mem r v = translate s.mem r v
  other : ∀ f ≠ a, ¬ IsPageTable s.mem r f → s₁.mem f = s.mem f

section Blocks

variable {s s1 s2 : Machine} {r a n f i : ℕ} {G V : Set PtOff}

namespace Guarding

variable (h : Guarding r a n G s s1)
include h

theorem bound (hk : KernelMap s r) : a + n ≤ 2 ^ 35 := h.alloc.lowest.1.1.trans hk.heap.direct

theorem not_used (h1 : a ≤ f) (h2 : f < a + n) : ¬ s.pmm.Used f := h.alloc.lowest.1.2 f h1 h2

/-- What the direct map had for a frame of the block. -/
theorem free (hk : KernelMap s r) (h1 : a ≤ f) (h2 : f < a + n) :
    (∃ t, pageWalk s1.mem r
      (directPage f).tables = some t) ∧
    translate s.mem r (directPage f) = some (f, vmmPresent ||| vmmWrite) := by
  rw [h.walk]
  exact hk.free f (h2.trans_le h.alloc.lowest.1.1) (h.not_used h1 h2)

theorem alters : Alters r G {a} s s1 := ⟨h.walk, h.outside, h.other⟩

theorem tree (hk : KernelMap s r) : TreeOk s1 r :=
  h.alters.tree hk.tree fun t ht => (h.alloc.used t).2 (Or.inr ht)

/-- The frames of the block are no tables. -/
theorem not_table (hk : KernelMap s r) (h1 : a ≤ f) (h2 : f < a + n) : ¬ IsPageTable s.mem r f :=
  fun ⟨π, hπ⟩ => h.not_used h1 h2 (hk.tree.used π f hπ)

/-- A step that takes the pages of `V` out and writes to no frame but `a`. -/
theorem step (hs : Alters r V {a} s1 s2) (hpmm : s2.pmm = s1.pmm)
    (hV : ∀ v ∈ V, translate s2.mem r v = none) : Guarding r a n (V ∪ G) s s2 where
  alloc := hpmm.symm ▸ h.alloc
  walk π := (hs.walk π).trans (h.walk π)
  guard v hv := by
    by_cases hvV : v ∈ V
    · exact hV v hvV
    · rw [hs.translate v hvV, h.guard v (hv.resolve_left hvV)]
  outside v hv := by
    rw [hs.translate v fun hm => hv (Or.inl hm), h.outside v fun hm => hv (Or.inr hm)]
  other f hf hnt := by
    rw [hs.frame f hf (mt h.alters.isPageTable.1 hnt), h.other f hf hnt]

/-- **A page of the block is taken out of the direct map.** -/
theorem unmap (hk : KernelMap s r) (h1 : a ≤ f) (h2 : f < a + n) (hG : directPage f ∉ G) :
    ∃ s2, s1.vmmUnmap (r * 0x1000) (wordPtr f 0) 1 = .ok (0, s2) ∧
      Guarding r a n (insert (directPage f) G) s s2 ∧ s2.mem a = s1.mem a := by
  obtain ⟨⟨t, ht⟩, hfree⟩ := h.free hk h1 h2
  have hm : translate s1.mem r (directPage f) ≠ none := by
    rw [h.outside _ hG, hfree]
    simp
  obtain ⟨s2, heq, hpmm, halters, hnone⟩ := vmmUnmap_direct (h.tree hk) ht hm
  refine ⟨s2, heq, h.step (halters.mono subset_rfl (Set.empty_subset _)) hpmm ?_, ?_⟩
  · rintro v rfl
    exact hnone
  · exact halters.frame a (Set.notMem_empty a)
      (mt h.alters.isPageTable.1 (h.not_table hk le_rfl (by omega)))

theorem storeWord (hk : KernelMap s r) (hn : 0 < n) (hG : directPage a ∉ G) (hi : i < 512) (x : ℕ) :
    s1.storeWord (r * 0x1000) (wordPtr a i) x = .ok (s1.writeWord (wordPtr a i) x) ∧
      Guarding r a n G s (s1.writeWord (wordPtr a i) x) := by
  have hbound := h.bound hk
  have hpage := (h.outside _ hG).trans (h.free hk le_rfl (by omega)).2
  obtain ⟨heq, halters⟩ := storeWord_direct (by omega) hpage
    (mt h.alters.isPageTable.1 (h.not_table hk le_rfl (by omega))) hi x
  refine ⟨heq, ?_⟩
  have hstep := h.step halters rfl fun v hv => absurd hv (Set.notMem_empty v)
  rwa [Set.empty_union] at hstep

end Guarding

/-! ### Taking a block -/

/-- The number of pages of a block of `size` bytes. -/
def blockPages (size : ℕ) : ℕ := (size + 0x2fff) / 0x1000

/-- The first and the last page of the block at frame `a`. -/
def guardPages (a size : ℕ) : Set PtOff := {directPage a, directPage (a + blockPages size - 1)}

/-- The block at frame `a` is in use: its guard pages are taken out, and the first one holds the
size and the signature. -/
structure GuardedBlock (r a size : ℕ) (s s₁ : Machine) : Prop where
  guarding : Guarding r a (blockPages size) (guardPages a size) s s₁
  head : ∀ i, s₁.mem a i =
    if i = 1 then mallocSignature else if i = 0 then size + 0x2000 else s.mem a i

variable {size : ℕ}

theorem two_le_blockPages (size : ℕ) : 2 ≤ blockPages size := by
  unfold blockPages
  omega

theorem size_lt_of_blockPages (hbound : a + blockPages size ≤ 2 ^ 35) : size + 0x2fff < 2 ^ 64 := by
  unfold blockPages at hbound
  omega

theorem directPage_notMem_guardPages (hbound : a + blockPages size ≤ 2 ^ 35) (hf : f < 2 ^ 35)
    (h1 : f ≠ a) (h2 : f ≠ a + blockPages size - 1) : directPage f ∉ guardPages a size := by
  have hn := two_le_blockPages size
  rintro (he | he)
  · exact directPage_ne hf (by omega) h1 he
  · exact directPage_ne hf (by omega) h2 he

theorem pagesOf_blockPages (hsize : size + 0x2fff < 2 ^ 64) :
    pagesOf (size + 0x2000) = blockPages size := by
  rw [pagesOf_eq (by omega), blockPages]

theorem pageCount_kmalloc (hsize : size + 0x2fff < 2 ^ 64) :
    (size + 0x2000 + 0x1000 - 1) % 2 ^ 64 / 0x1000 = blockPages size := by
  unfold blockPages
  omega

/-- The page count of `kfree`, which does not count the first page. -/
theorem pageCount_kfree (hsize : size + 0x2fff < 2 ^ 64) :
    (size + 0x2000 + (2 ^ 64 - 0x1000) + 0x1000 - 1) % 2 ^ 64 / 0x1000 = blockPages size - 1 := by
  unfold blockPages
  omega

theorem wordPtr_lastPage {k : ℕ} (hk : 0 < k) (ha : a + k ≤ 2 ^ 35) :
    (wordPtr a 0 + (k + (2 ^ 64 - 1)) * 0x1000) % 2 ^ 64 = wordPtr (a + k - 1) 0 := by
  rw [wordPtr_eq (by omega), wordPtr_eq (by omega), normalVmaOffset]
  omega

theorem Guarding.refl {p : Pmm} (halloc : Allocated s.pmm n a p) :
    Guarding r a n ∅ s { s with pmm := p } where
  alloc := halloc
  walk _ := rfl
  guard _ h := absurd h (Set.notMem_empty _)
  outside _ _ := rfl
  other _ _ _ := rfl

/-- **`kmalloc` takes a block and guards it**, and halts only when there is no room. -/
theorem kmallocGuarded_spec (hk : KernelMap s r) (hsize : size + 0x2fff < 2 ^ 64) :
    Ensures (fun e => e = .noFreeMemory ∧ ∀ a, ¬ s.pmm.Run a (blockPages size))
      (s.kmallocGuarded (r * 0x1000) size) fun res =>
        ∃ a, res.1 = wordPtr (a + 1) 0 ∧ GuardedBlock r a size s res.2 := by
  have hspec := @pmmAlloc_spec s (size + 0x2000) (Or.inl hk.heap.reserved)
  have hn := two_le_blockPages size
  rw [pagesOf_blockPages hsize] at hspec
  unfold kmallocGuarded
  rw [Nat.mod_eq_of_lt (show size + 0x2000 < 2 ^ 64 by omega)]
  refine hspec.bind ?_
  rintro ⟨-, _, p⟩ ⟨a, rfl, rfl, halloc⟩
  have h0 : Guarding r a (blockPages size) ∅ s { s with pmm := p } := Guarding.refl halloc
  have hbound := h0.bound hk
  have hne : directPage a ≠ directPage (a + blockPages size - 1) :=
    directPage_ne (by omega) (by omega) (by omega)
  have hptr : (a * 0x1000 + normalVmaOffset) % 2 ^ 64 = wordPtr a 0 := by
    rw [wordPtr_eq (by omega), normalVmaOffset]
    omega
  have hsig : (wordPtr a 0 + 8) % 2 ^ 64 = wordPtr a 1 := by
    rw [wordPtr_eq (by omega), wordPtr_eq (by omega), normalVmaOffset]
    omega
  obtain ⟨s1, he1, h1, hmem1⟩ := h0.unmap hk (f := a + blockPages size - 1) (by omega)
    (by omega) (Set.notMem_empty _)
  have hG : directPage a ∉ (insert (directPage (a + blockPages size - 1)) ∅ : Set PtOff) := by
    simpa using hne
  obtain ⟨he2, h2⟩ := h1.storeWord hk (i := 0) (by omega) hG (by decide) (size + 0x2000)
  obtain ⟨he3, h3⟩ := h2.storeWord hk (i := 1) (by omega) hG (by decide) mallocSignature
  obtain ⟨s4, he4, h4, hmem⟩ := h3.unmap hk (f := a) le_rfl (by omega) hG
  dsimp only
  rw [hptr, pageCount_kmalloc hsize, wordPtr_lastPage (by omega) hbound, he1, ok_bind, he2,
    ok_bind, hsig, he3, ok_bind, he4, ok_bind, if_neg (not_not.2 (wordPtr_mod (by omega))),
    wordPtr_next (by omega)]
  refine ⟨a, rfl, ?_, fun i => ?_⟩
  · rwa [insert_empty_eq] at h4
  · rw [hmem, mem_writeWord (by omega) (by decide), mem_writeWord (by omega) (by decide), hmem1]
    simp

/-- The direct map serves further blocks. -/
theorem GuardedBlock.kernelMap (hk : KernelMap s r) (h : GuardedBlock r a size s s1) :
    KernelMap s1 r := by
  have hg := h.guarding
  have hbound := hg.bound hk
  have hn := two_le_blockPages size
  have hmax := hg.alloc.maxPage
  refine ⟨hg.tree hk, hg.alters.tables hk.tables,
    ⟨hmax ▸ hk.heap.direct, hmax ▸ hk.heap.reserved.1, ?_⟩, ?_⟩
  · exact (hg.alloc.used 0).2 (Or.inr hk.heap.reserved.2)
  · intro f hf hu
    have hout : ¬ (a ≤ f ∧ f < a + blockPages size) :=
      fun hb => hu ((hg.alloc.used f).2 (Or.inl hb))
    obtain ⟨⟨t, ht⟩, hfree⟩ := hk.free f (hmax ▸ hf) fun hu' =>
      hu ((hg.alloc.used f).2 (Or.inr hu'))
    have hlt : f < 2 ^ 35 := hf.trans_le (hmax ▸ hk.heap.direct)
    exact ⟨⟨t, (hg.walk _).trans ht⟩, (hg.outside _
      (directPage_notMem_guardPages hbound hlt (by omega) (by omega))).trans hfree⟩

/-- **The guard pages do not show in the block**: `kmalloc` without them does the same. -/
theorem kmallocGuarded_refines (hk : KernelMap s r) (hsize : size + 0x2fff < 2 ^ 64) {addr : Ptr}
    (hm : s.kmallocGuarded (r * 0x1000) size = .ok (addr, s1)) :
    ∃ s', s.kmalloc size = .ok (addr, s') ∧ s'.pmm = s1.pmm ∧
      ∀ f, ¬ IsPageTable s.mem r f → s'.mem f = s1.mem f := by
  obtain ⟨a, haddr, hb⟩ := (kmallocGuarded_spec hk hsize).of_ok hm
  have hg := hb.guarding
  have hbound := hg.bound hk
  have hn := two_le_blockPages size
  have hspec := @pmmAlloc_spec s (size + 0x2000) (Or.inl hk.heap.reserved)
  rw [pagesOf_blockPages hsize] at hspec
  unfold kmalloc
  cases hp : s.pmmAlloc (size + 0x2000) with
  | error e =>
    rw [hp] at hspec
    exact absurd hg.alloc.lowest.1 (hspec.2 a)
  | ok x =>
    rw [hp] at hspec
    obtain ⟨b, hb', hmem, halloc⟩ := hspec
    obtain ⟨rfl, hpmm⟩ := hg.alloc.unique halloc
    have hptr : wordPtr a 0 = getHigherHalf x.1 := by
      rw [hb', wordPtr, Nat.mul_zero, Nat.add_zero]
    change ∃ s', Except.ok _ = _ ∧ _
    rw [← hptr, wordPtr_next (by omega), wordPtr_add 1, show addr = wordPtr (a + 1) 0 from haddr]
    refine ⟨_, rfl, hpmm.symm, fun f hf => ?_⟩
    funext i
    rw [mem_writeWord (by omega) (by decide), mem_writeWord (by omega) (by decide), hmem]
    by_cases hfa : f = a
    · subst hfa
      rw [hb.head]
      simp
    · rw [if_neg fun h => hfa h.1, if_neg fun h => hfa h.1, hg.other f hfa hf]

/-! ### Live blocks -/

/-- The block at frame `a` is in use, and its upper guard page is taken out. -/
structure SizedBlock (s : Machine) (r a size : ℕ) : Prop where
  pos : 0 < a
  bound : a + blockPages size ≤ s.pmm.bitmapMaxPage
  used : ∀ f, a ≤ f → f < a + blockPages size → s.pmm.Used f
  notTable : ∀ f, a ≤ f → f < a + blockPages size → ¬ IsPageTable s.mem r f
  table : ∀ f, a ≤ f → f < a + blockPages size → ∃ t, pageWalk s.mem r
    [(directPage f).p2Off, (directPage f).p3Off, (directPage f).p4Off] = some t
  mapped : ∀ f, a < f → f < a + blockPages size - 1 →
    translate s.mem r (directPage f) = some (f, vmmPresent ||| vmmWrite)
  upper : translate s.mem r (directPage (a + blockPages size - 1)) = none
  size : s.mem a 0 = size + 0x2000
  signature : s.mem a 1 = mallocSignature

/-- **A block that was taken and not released**: both of its guard pages are taken out. -/
structure LiveBlock (s : Machine) (r a size : ℕ) : Prop extends SizedBlock s r a size where
  lower : translate s.mem r (directPage a) = none

/-- `kmalloc` returns a live block. -/
theorem GuardedBlock.live (hk : KernelMap s r) (h : GuardedBlock r a size s s1) :
    LiveBlock s1 r a size := by
  have hg := h.guarding
  have hbound := hg.bound hk
  have htwo := two_le_blockPages size
  have hpos : 0 < a := by
    refine Nat.pos_of_ne_zero ?_
    rintro rfl
    exact hg.not_used le_rfl (by omega) hk.heap.reserved.2
  refine ⟨⟨hpos, hg.alloc.maxPage.symm ▸ hg.alloc.lowest.1.1, fun f h1 h2 => ?_,
    fun f h1 h2 => ?_, fun f h1 h2 => (hg.free hk h1 h2).1, fun f h1 h2 => ?_,
    hg.guard _ (Or.inr rfl), h.head 0, h.head 1⟩, hg.guard _ (Or.inl rfl)⟩
  · exact (hg.alloc.used f).2 (Or.inl ⟨h1, h2⟩)
  · exact mt hg.alters.isPageTable.1 (hg.not_table hk h1 h2)
  · rw [hg.outside _ (directPage_notMem_guardPages hbound (by omega) (by omega) (by omega)),
      (hg.free hk (by omega) (by omega)).2]

/-! ### Releasing a block -/

/-- The state after the release of a block. -/
structure Released (r a size : ℕ) (s s' : Machine) : Prop where
  alters : Alters r (guardPages a size) ∅ s s'
  mapped : ∀ f, a ≤ f → f < a + blockPages size →
    translate s'.mem r (directPage f) = some (f, vmmPresent ||| vmmWrite)
  pmm : s.pmm.pmmUnalloc (a * 0x1000) (size + 0x2000) = .ok s'.pmm
  maxPage : s'.pmm.bitmapMaxPage = s.pmm.bitmapMaxPage
  used : ∀ f, s'.pmm.Used f ↔ ¬ (a ≤ f ∧ f < a + blockPages size) ∧ s.pmm.Used f

/-- The words in front of a block, once its lower guard page is mapped. -/
theorem SizedBlock.loadWord_head (h : SizedBlock s r a size) (ha : a < 2 ^ 35)
    (hpage : translate s1.mem r (directPage a) = some (a, vmmPresent ||| vmmWrite))
    (hmem : s1.mem a = s.mem a) :
    s1.loadWord (r * 0x1000) (wordPtr a 0) = .ok (size + 0x2000) ∧
      s1.loadWord (r * 0x1000) (wordPtr a 1) = .ok mallocSignature := by
  rw [loadWord_direct ha hpage (by decide), loadWord_direct ha hpage (by decide), hmem]
  exact ⟨congrArg Except.ok h.size, congrArg Except.ok h.signature⟩

/-- **`kfree` of a block of at least one byte puts its guard pages back and returns its pages.** -/
theorem kfreeGuarded_live (hok : TreeOk s r) (htables : TablesMapped s.mem r)
    (hdirect : s.pmm.bitmapMaxPage ≤ 2 ^ 35) (h : SizedBlock s r a size) (hpos : 0 < size)
    (hlower : translate s.mem r (directPage a) = none ∨
      translate s.mem r (directPage a) = some (a, vmmPresent ||| vmmWrite)) :
    ∃ s', s.kfreeGuarded (r * 0x1000) (wordPtr (a + 1) 0) = .ok s' ∧ Released r a size s s' := by
  have hbound := h.bound.trans hdirect
  have hpages : 3 ≤ blockPages size := by
    unfold blockPages
    omega
  have hsize := size_lt_of_blockPages hbound
  have hsig : (wordPtr (a + 1) 0 + (2 ^ 64 - 0xff8)) % 2 ^ 64 = wordPtr a 1 := by
    rw [wordPtr_eq (by omega), wordPtr_eq (by omega), normalVmaOffset]
    omega
  have hlast : a + 1 + (blockPages size - 1) - 1 = a + blockPages size - 1 := by omega
  have hne : directPage (a + blockPages size - 1) ≠ directPage a :=
    directPage_ne (by omega) (by omega) (by omega)
  obtain ⟨t0, ht0⟩ := h.table a le_rfl (by omega)
  obtain ⟨t1, ht1⟩ := h.table (a + 1) (by omega) (by omega)
  obtain ⟨t2, ht2⟩ := h.table (a + blockPages size - 1) (by omega) (by omega)
  have hmapped : s.isMapped (r * 0x1000) (wordPtr (a + 1) 0) = true := by
    rw [isMapped, (virtToPhys_direct hok htables (by omega) ht1).2 _
      (h.mapped (a + 1) (by omega) (by omega)), bne_iff_ne, notMapped]
    omega
  -- the lower guard page
  obtain ⟨ret1, s1, he1, hpmm1, halt1, hpage1⟩ := vmmMap_direct hok (by omega) ht0 hlower
  have hmem1 : s1.mem a = s.mem a :=
    halt1.frame a (Set.notMem_empty a) (h.notTable a le_rfl (by omega))
  obtain ⟨hload1, -⟩ := h.loadWord_head (by omega) hpage1 hmem1
  have hok1 : TreeOk s1 r := halt1.tree hok fun t ht => hpmm1.symm ▸ ht
  -- the upper guard page
  obtain ⟨ret2, s2, he2, hpmm2, halt2, hpage2⟩ := vmmMap_direct hok1 (by omega)
    ((halt1.walk _).trans ht2) (Or.inl ((halt1.translate _ hne).trans h.upper))
  have halt : Alters r ({directPage a} ∪ {directPage (a + blockPages size - 1)}) (∅ ∪ ∅) s s2 :=
    halt1.trans halt2
  have hpage1' : translate s2.mem r (directPage a) = some (a, vmmPresent ||| vmmWrite) :=
    (halt2.translate _ hne.symm).trans hpage1
  have hmem2 : s2.mem a = s.mem a := halt.frame a (by simp) (h.notTable a le_rfl (by omega))
  obtain ⟨hload2, hsig2⟩ := h.loadWord_head (by omega) hpage1' hmem2
  have hok2 : TreeOk s2 r := halt2.tree hok1 fun t ht => hpmm2.symm ▸ ht
  have hphys : s2.virtToPhys (wordPtr a 0) (r * 0x1000) = a * 0x1000 :=
    (virtToPhys_direct hok2 (halt.tables htables) (by omega) ((halt.walk _).trans ht0)).2 _ hpage1'
  -- the pages
  have hpagesOf := pagesOf_blockPages hsize
  have hpmm : s2.pmm = s.pmm := hpmm2.trans hpmm1
  obtain ⟨p', hp', hmax, hused, -⟩ := @pmmUnalloc_eq s.pmm a (size + 0x2000) (by omega)
    (by rw [hpagesOf]; exact h.bound)
  rw [hpagesOf] at hused
  refine ⟨{ s2 with pmm := p' }, ?_, ⟨halt.walk, halt.translate, ?_⟩, ?_, hp', hmax, hused⟩
  · unfold kfreeGuarded
    rw [if_neg (not_not.2 (wordPtr_mod (by omega))), hmapped, if_neg (by decide),
      wordPtr_header (by omega), hsig]
    dsimp only
    rw [getLowerHalf_wordPtr (by omega), he1, ok_bind, hload1, ok_bind, pageCount_kfree hsize,
      wordPtr_lastPage (by omega) (by omega), hlast, getLowerHalf_wordPtr (by omega), he2, ok_bind,
      hsig2, ok_bind, if_neg (not_not.2 rfl), hphys, if_pos (by rw [notMapped]; omega), hload2,
      ok_bind, pmmUnalloc, hpmm, hp']
    rfl
  · exact fun f _ hf => halt.frame f (by simp) hf
  · intro f h1 h2
    by_cases hfa : f = a
    · rw [hfa]
      exact hpage1'
    · by_cases hfl : f = a + blockPages size - 1
      · rw [hfl]
        exact hpage2
      · exact (halt.translate _ (directPage_notMem_guardPages hbound (by omega) hfa hfl)).trans
          (h.mapped f (by omega) (by omega))

/-- `kfree` of an empty block stops: its address is the upper guard page. -/
theorem kfreeGuarded_zero (hok : TreeOk s r) (htables : TablesMapped s.mem r)
    (hdirect : s.pmm.bitmapMaxPage ≤ 2 ^ 35) (h : SizedBlock s r a 0) :
    s.kfreeGuarded (r * 0x1000) (wordPtr (a + 1) 0) = .error .fault := by
  have hbound := h.bound.trans hdirect
  have hpages : blockPages 0 = 2 := rfl
  obtain ⟨t, ht⟩ := h.table (a + 1) (by omega) (by omega)
  have hmapped : s.isMapped (r * 0x1000) (wordPtr (a + 1) 0) = false := by
    rw [isMapped, (virtToPhys_direct hok htables (by omega) ht).1 h.upper]
    rfl
  unfold kfreeGuarded
  rw [if_neg (not_not.2 (wordPtr_mod (by omega))), if_pos hmapped]

/-- The counters follow the bitmap when a block is released. -/
theorem Released.balanced (hrel : Released r a size s s1) (h : SizedBlock s r a size)
    (hdirect : s.pmm.bitmapMaxPage ≤ 2 ^ 35) : Balanced s.pmm s1.pmm := by
  have hbound := h.bound.trans hdirect
  have hpagesOf := pagesOf_blockPages (size_lt_of_blockPages hbound)
  obtain ⟨p', hp', -, -, hbal⟩ := @pmmUnalloc_eq s.pmm a (size + 0x2000) (by omega)
    (by rw [hpagesOf]; exact h.bound)
  rw [hpagesOf] at hbal
  rw [Except.ok.inj (hrel.pmm.symm.trans hp')]
  exact hbal h.used

/-- **`kfree` right after `kmalloc` puts everything back**, if the block is not empty. -/
theorem kfreeGuarded_spec (hk : KernelMap s r) (h0 : size ≠ 0) (h : GuardedBlock r a size s s1) :
    ∃ s2, s1.kfreeGuarded (r * 0x1000) (wordPtr (a + 1) 0) = .ok s2 ∧ s2.pmm = s.pmm ∧
      ∀ v, translate s2.mem r v = translate s.mem r v := by
  have hg := h.guarding
  have hk1 := h.kernelMap hk
  have hlive := h.live hk
  obtain ⟨s2, hfree, hrel⟩ := kfreeGuarded_live hk1.tree hk1.tables hk1.heap.direct
    hlive.toSizedBlock (Nat.pos_of_ne_zero h0) (Or.inl hlive.lower)
  refine ⟨s2, hfree, ?_, fun v => ?_⟩
  · -- the pages are those that were taken, and both counters are balanced
    have hbal := hg.alloc.balanced.trans (hrel.balanced hlive.toSizedBlock hk1.heap.direct)
    refine (hbal.eq_of_used fun f => ?_).symm
    rw [hrel.used, hg.alloc.used]
    constructor
    · intro hf
      exact ⟨fun hb => hg.not_used hb.1 hb.2 hf, Or.inr hf⟩
    · rintro ⟨hout, hf | hf⟩
      · exact absurd hf hout
      · exact hf
  · by_cases hv : v ∈ guardPages a size
    · have hn := two_le_blockPages size
      rcases hv with rfl | rfl
      · exact (hrel.mapped _ le_rfl (by omega)).trans (hg.free hk le_rfl (by omega)).2.symm
      · exact (hrel.mapped _ (by omega) (by omega)).trans
          (hg.free hk (by omega) (by omega)).2.symm
    · rw [hrel.alters.translate v hv, hg.outside v hv]

/-- **The address of an empty block is its upper guard page**, and `kfree` stops. -/
theorem kfreeGuarded_empty (hk : KernelMap s r) (h : GuardedBlock r a 0 s s1) :
    s1.kfreeGuarded (r * 0x1000) (wordPtr (a + 1) 0) = .error .fault := by
  have hk1 := h.kernelMap hk
  exact kfreeGuarded_zero hk1.tree hk1.tables hk1.heap.direct (h.live hk).toSizedBlock

/-! ### When a block can be taken and released -/

/-- What the caller of `kmalloc` may rely on. -/
structure Usable (s : Machine) (r size : ℕ) (addr : Ptr) (s₁ : Machine) : Prop where
  aligned : addr % 0x1000 = 0
  /-- The bytes are mapped, writable, and in frames that were free. -/
  mapped : ∀ i < size, ∃ f,
    translate s₁.mem r (vmmVirtToOffs (addr + i)) = some (f, vmmPresent ||| vmmWrite) ∧
      ¬ s.pmm.Used f ∧ s₁.pmm.Used f
  /-- The page before the block is not mapped. -/
  below : translate s₁.mem r (vmmVirtToOffs (addr - 0x1000)) = none
  /-- Nor is the page after it. -/
  above : translate s₁.mem r (vmmVirtToOffs (addr + (size + 0xfff) / 0x1000 * 0x1000)) = none

/-- `kmalloc` returns a usable block, and `kfree` restores the physical memory manager and the
translation. -/
def MallocFree (s : Machine) (r size : ℕ) : Prop :=
  ∃ addr s₁, s.kmallocGuarded (r * 0x1000) size = .ok (addr, s₁) ∧ Usable s r size addr s₁ ∧
    ∃ s₂, s₁.kfreeGuarded (r * 0x1000) addr = .ok s₂ ∧ s₂.pmm = s.pmm ∧
      ∀ v, translate s₂.mem r v = translate s.mem r v

theorem GuardedBlock.usable (hk : KernelMap s r) (h : GuardedBlock r a size s s1) :
    Usable s r size (wordPtr (a + 1) 0) s1 := by
  have hg := h.guarding
  have hbound := hg.bound hk
  have hn := two_le_blockPages size
  -- byte `i` of page `j` of the block
  have hpage : ∀ i, a + 1 + i / 0x1000 < a + blockPages size →
      vmmVirtToOffs (wordPtr (a + 1) 0 + i) = directPage (a + 1 + i / 0x1000) := by
    intro i hi
    rw [directPage, vmmVirtToOffs_eq_iff, wordPtr_eq (by omega), getHigherHalf, normalVmaOffset]
    omega
  refine ⟨wordPtr_mod (by omega), fun i hi => ?_, ?_, ?_⟩
  · have hlt : a + 1 + i / 0x1000 < a + blockPages size - 1 := by
      unfold blockPages
      omega
    have hG : directPage (a + 1 + i / 0x1000) ∉ guardPages a size :=
      directPage_notMem_guardPages hbound (by omega) (by omega) (by omega)
    refine ⟨a + 1 + i / 0x1000, ?_, hg.not_used (by omega) (by omega),
      (hg.alloc.used _).2 (Or.inl ⟨by omega, by omega⟩)⟩
    rw [hpage i (by omega), hg.outside _ hG, (hg.free hk (by omega) (by omega)).2]
  · have haddr : wordPtr (a + 1) 0 - 0x1000 = wordPtr a 0 := by
      rw [wordPtr_eq (by omega), wordPtr_eq (by omega)]
      omega
    rw [haddr]
    exact hg.guard _ (Or.inl (vmmVirtToOffs_wordPtr (by decide)))
  · have hlast : a + 1 + (size + 0xfff) / 0x1000 = a + blockPages size - 1 := by
      unfold blockPages
      omega
    have hdata := hpage ((size + 0xfff) / 0x1000 * 0x1000)
    rw [Nat.mul_div_cancel _ (by decide), hlast] at hdata
    rw [hdata (by omega)]
    exact hg.guard _ (Or.inr rfl)

theorem not_mallocFree_zero (hk : KernelMap s r) : ¬ MallocFree s r 0 := by
  rintro ⟨addr, s1, hm, -, s2, hf, -⟩
  obtain ⟨a, haddr, hb⟩ := (kmallocGuarded_spec hk (by decide)).of_ok hm
  rw [show addr = wordPtr (a + 1) 0 from haddr, kfreeGuarded_empty hk hb] at hf
  cases hf

/-- **A block can be taken and released again exactly when it is not empty and there is room.** -/
theorem mallocFree_iff (hk : KernelMap s r) (hsize : size + 0x2fff < 2 ^ 64) :
    MallocFree s r size ↔ size ≠ 0 ∧ ∃ a, s.pmm.Run a (blockPages size) := by
  have hspec := kmallocGuarded_spec hk hsize
  constructor
  · intro h
    obtain ⟨addr, s1, hm, -⟩ := id h
    obtain ⟨a, -, hb⟩ := hspec.of_ok hm
    refine ⟨?_, a, hb.guarding.alloc.lowest.1⟩
    rintro rfl
    exact not_mallocFree_zero hk h
  · rintro ⟨h0, a, ha⟩
    cases hm : s.kmallocGuarded (r * 0x1000) size with
    | error e =>
      rw [hm] at hspec
      exact absurd ha (hspec.2 a)
    | ok res =>
      obtain ⟨b, hb, hblock⟩ := hspec.of_ok hm
      refine ⟨res.1, res.2, hm, ?_⟩
      rw [hb]
      exact ⟨hblock.usable hk, kfreeGuarded_spec hk h0 hblock⟩

/-- 16 frames, with the tables of the direct map in the frames 1 to 4. -/
def sixteenFrames : Machine where
  mem f i :=
    match f with
    | 1 => if i = 256 then tableEntry 2 else 0
    | 2 => if i = 0 then tableEntry 3 else 0
    | 3 => if i = 0 then tableEntry 4 else 0
    | 4 => if i.val < 16 then i.val * 0x1000 ||| 3 else 0
    | _ => 0
  pmm := .ofBitmap 16 5 fun i => if i = 0 then 0x1f else 0

/-- The tables of `sixteenFrames`. -/
def sixteenFramesTables : List (List (Fin 512) × ℕ) :=
  [([], 1), ([256], 2), ([0, 256], 3), ([0, 0, 256], 4)]

theorem describes_sixteenFrames : Describes pageChild sixteenFrames.mem 1 sixteenFramesTables :=
  describes_of_check (by decide +kernel)

theorem kernelMap_sixteenFrames : KernelMap sixteenFrames 1 where
  tree := TreeOk.of_describes (by decide) describes_sixteenFrames (by decide +kernel)
  tables π t hne ht := by
    have h : ∀ x ∈ sixteenFramesTables, Followed x.2 := by decide
    exact h _ (describes_sixteenFrames.mem ht)
  heap := ⟨by decide, by decide, by decide⟩
  free f hf _ := by
    have hwalk : ∀ f < 16, pageWalk sixteenFrames.mem 1
        (directPage f).tables = some 4 ∧
        translate sixteenFrames.mem 1 (directPage f) = some (f, vmmPresent ||| vmmWrite) := by
      decide +kernel
    exact ⟨⟨4, (hwalk f hf).1⟩, (hwalk f hf).2⟩

theorem kmallocGuarded_refines_sixteenFrames : ∃ res, sixteenFrames.kmalloc 1 = .ok res := by
  obtain ⟨x, hm, -⟩ := exists_ok_of_map (x := sixteenFrames.kmallocGuarded (1 * 0x1000) 1)
    (f := fun _ => ()) (b := ()) (by decide +kernel)
  obtain ⟨s', h, -⟩ := kmallocGuarded_refines kernelMap_sixteenFrames (by decide) hm
  exact ⟨_, h⟩

theorem free_sixteenFrames (q : ℕ) (h1 : 5 ≤ q) (h2 : q < 16) : ¬ sixteenFrames.pmm.Used q := by
  have hfree : ∀ q < 16, 5 ≤ q → ¬ sixteenFrames.pmm.Used q := by decide
  exact hfree q h2 h1

/-- A block of one byte. -/
theorem mallocFree_sixteenFrames : MallocFree sixteenFrames 1 1 :=
  (mallocFree_iff kernelMap_sixteenFrames (by decide)).2
    ⟨by decide, 5, by decide, fun q h1 h2 => free_sixteenFrames q h1 (by
      change q < 5 + 3 at h2
      omega)⟩

/-- An empty block is at an address that is not mapped, and cannot be released. -/
theorem not_mallocFree_empty : sixteenFrames.pmm.Run 5 (blockPages 0) ∧
    (sixteenFrames.kmallocGuarded 0x1000 0).toOption.map (fun r =>
      (r.1, r.2.isMapped 0x1000 r.1, stopReason (r.2.kfreeGuarded 0x1000 r.1))) =
        some (0xFFFF800000006000, false, some .fault) ∧
    ¬ MallocFree sixteenFrames 1 0 := by
  refine ⟨⟨by decide, fun q h1 h2 => free_sixteenFrames q h1 ?_⟩, by decide +kernel,
    not_mallocFree_zero kernelMap_sixteenFrames⟩
  change q < 5 + 2 at h2
  omega

end Blocks

end Machine

end DripOS
