import DripOS.Proc.Elf

/-!
# What a loaded program looks like

A segment gets `ceil(memsz / 4096)` frames, but its bytes start at the offset of its first address
inside a page: they stay in these frames only if they fit (`Segment.Fits`).  Its pages are mapped to
its own frames, also where another segment had mapped one, so that the last segment that maps a page
decides what is there (`lastMapping`).

* `Grown` : what any step keeps;
* `Loaded` : what the steps have mapped, when all segments fit;
* `loaded_runOps` : this holds after all steps of a plan.
-/

namespace DripOS

open TableTree Machine Pmm List

/-! ### Address spaces that grow -/

/-- All pages of the lower half are regular. -/
abbrev LowRegular (mem : ℕ → Fin 512 → ℕ) (r : ℕ) : Prop := ∀ v : PtOff, v.Low → Regular mem r v

/-- The address space with root `r` results from that of `s₀` by mapping pages of the lower half. -/
structure Grown (r : ℕ) (s₀ s : Machine) : Prop where
  tree : TreeOk s r
  regular : ∀ v : PtOff, v.Low → Regular s.mem r v
  reserved : 0 < s.pmm.bitmapMaxPage ∧ s.pmm.Used 0
  used : ∀ f, s₀.pmm.Used f → s.pmm.Used f
  fresh : ∀ π t, pageWalk s.mem r π = some t → pageWalk s₀.mem r π = some t ∨ ¬ s₀.pmm.Used t
  kept : ∀ f, s₀.pmm.Used f → (¬ ∃ π, LowPath π ∧ pageWalk s₀.mem r π = some f) → s.mem f = s₀.mem f

/-- Frames were allocated, and those in use before were not written. -/
structure Extended (s : Machine) (a n : ℕ) (s' : Machine) : Prop where
  alloc : Allocated s.pmm n a s'.pmm
  other : ∀ f, s.pmm.Used f → s'.mem f = s.mem f

namespace Extended

variable {s s' s1 : Machine} {a n r : ℕ} {V : Set PtOff}

variable (h : Extended s a n s') {f : ℕ}
include h

theorem table (hr : TreeOk s r) (t : ℕ) (ht : IsPageTable s.mem r t) : s'.mem t = s.mem t := by
  obtain ⟨π, hπ⟩ := ht
  exact h.other t (hr.used π t hπ)

theorem used (hf : s.pmm.Used f) : s'.pmm.Used f := (h.alloc.used f).2 (Or.inr hf)

variable (hr : TreeOk s r)
include hr

theorem walk (π : List (Fin 512)) : pageWalk s'.mem r π = pageWalk s.mem r π :=
  pageWalk_congr (h.table hr) π

theorem translate (v : PtOff) : DripOS.translate s'.mem r v = DripOS.translate s.mem r v :=
  translate_congr (h.table hr) v

theorem tree : TreeOk s' r := hr.congr (h.walk hr) fun t ⟨π, hπ⟩ => h.used (hr.used π t hπ)

/-- A frame that was used and is no table stays so. -/
theorem not_isTable (ht : Touch r V s' s1) (hf : s.pmm.Used f) (hno : ¬ IsPageTable s.mem r f) :
    ¬ IsPageTable s1.mem r f := by
  rintro ⟨π, hπ⟩
  rcases ht.fresh π f hπ with hold | ⟨hfree, -⟩
  · exact hno ⟨π, h.walk hr π ▸ hold⟩
  · exact hfree (h.used hf)

theorem kept (ht : Touch r V s' s1) (hf : s.pmm.Used f) (hno : ¬ IsPageTable s.mem r f) :
    s1.mem f = s.mem f :=
  (ht.frame f (h.not_isTable hr ht hf hno)).trans (h.other f hf)

/-- **Mapping pages of the lower half to new frames.** -/
theorem grown (hreg : LowRegular s.mem r)
    (h0 : s.pmm.ZeroUsed) (ht : Touch r V s' s1) (hV : ∀ v ∈ V, v.Low) :
    Grown r s s1 where
  tree := ht.ok
  regular v hv := ht.regular ((hreg v hv).congr (h.table hr))
  reserved := by
    rw [← ht.balanced.1, h.alloc.maxPage]
    exact ⟨h0.1, ht.used_of_used (h.used h0.2)⟩
  used f hf := ht.used_of_used (h.used hf)
  fresh π t hπ := by
    rcases ht.fresh π t hπ with hold | ⟨hfree, -⟩
    · exact Or.inl (h.walk hr π ▸ hold)
    · exact Or.inr fun hu => hfree (h.used hu)
  kept f hf hlow := by
    rw [← h.other f hf]
    by_cases hold : IsPageTable s.mem r f
    · -- a table of the upper half
      obtain ⟨π, hπ⟩ := hold
      have hhigh : ¬ LowPath π := fun hl => hlow ⟨π, hl, hπ⟩
      funext i
      exact ht.entry π f i ((h.walk hr π).trans hπ) fun v hv => not_suffix_path hhigh (hV v hv) i
    · exact ht.frame f (h.not_isTable hr ht hf hold)

end Extended

theorem Reserved.extended {s s' : Machine} {a n : ℕ} (h : Reserved s a n s') : Extended s a n s' :=
  ⟨h.alloc, fun _ hf => h.other _ fun hb => h.not_used hb.1 hb.2 hf⟩

namespace Grown

variable {s0 s s' : Machine} {r : ℕ}

theorem refl (hr : TreeOk s r) (hreg : LowRegular s.mem r)
    (h0 : s.pmm.ZeroUsed) : Grown r s s where
  tree := hr
  regular := hreg
  reserved := h0
  used _ hf := hf
  fresh _ _ hπ := Or.inl hπ
  kept _ _ _ := rfl

theorem trans (h : Grown r s0 s) (h' : Grown r s s') : Grown r s0 s' where
  tree := h'.tree
  regular := h'.regular
  reserved := h'.reserved
  used f hf := h'.used f (h.used f hf)
  fresh π t hπ := by
    rcases h'.fresh π t hπ with hold | hfree
    · exact h.fresh π t hold
    · exact Or.inr fun hu => hfree (h.used t hu)
  kept f hf hlow := by
    rw [h'.kept f (h.used f hf), h.kept f hf hlow]
    rintro ⟨π, hl, hπ⟩
    rcases h.fresh π f hπ with hold | hfree
    · exact hlow ⟨π, hl, hold⟩
    · exact hfree hf

end Grown

namespace Elf

/-! ### Segments -/

namespace Segment

variable (seg : Segment)

/-- The number of pages that are mapped. -/
def pages : ℕ := pagesOf seg.memsz

/-- The page of the address `u` is mapped. -/
def Maps (u : ℕ) : Prop :=
  seg.virt / 0x1000 ≤ u / 0x1000 ∧ u / 0x1000 < seg.virt / 0x1000 + seg.pages

instance (u : ℕ) : Decidable (seg.Maps u) := inferInstanceAs (Decidable (_ ∧ _))

/-- The byte of the segment at the address `u`. -/
def byteAt (u : ℕ) : Option UInt8 :=
  if seg.virt ≤ u ∧ u < seg.virt + seg.memsz then
    some (if u - seg.virt < seg.filesz then seg.data (u - seg.virt) else 0)
  else none

/-- The bytes of the segment stay in the pages that are mapped. -/
def Fits : Prop := seg.virt % 0x1000 + seg.memsz ≤ seg.pages * 0x1000

instance : Decidable seg.Fits := inferInstanceAs (Decidable (_ ≤ _))

/-- A segment of the lower half that is not empty, with no more bytes in the file than in memory. -/
structure Valid : Prop where
  pos : 0 < seg.memsz
  filesz_le : seg.filesz ≤ seg.memsz
  low : seg.virt + seg.memsz ≤ 2 ^ 47

/-- Store the segment in the frames from `a` on. -/
def fill (a : ℕ) (s : Machine) : Machine :=
  let region := a * 0x1000 + seg.virt % 0x1000
  (s.writeBytes region seg.memsz fun _ => 0).writeBytes region seg.filesz seg.data

variable {seg} {a : ℕ} {s : Machine}

theorem byteAt_eq_some {u : ℕ} {b : UInt8} : seg.byteAt u = some b ↔
    ∃ j < seg.memsz, seg.virt + j = u ∧ (if j < seg.filesz then seg.data j else 0) = b := by
  constructor
  · intro h
    by_cases hin : seg.virt ≤ u ∧ u < seg.virt + seg.memsz
    · rw [byteAt, if_pos hin] at h
      exact ⟨u - seg.virt, by omega, by omega, Option.some.inj h⟩
    · rw [byteAt, if_neg hin] at h
      cases h
  · rintro ⟨j, hj, rfl, rfl⟩
    rw [byteAt, if_pos ⟨Nat.le_add_right _ _, Nat.add_lt_add_left hj _⟩, Nat.add_sub_cancel_left]

theorem Valid.pages_eq (h : seg.Valid) : seg.pages = (seg.memsz + 4095) / 4096 :=
  pagesOf_eq (by have := h.low; omega)

theorem Valid.pages_le (h : seg.Valid) : seg.pages ≤ 2 ^ 36 := by
  have := h.low
  rw [h.pages_eq]
  omega

theorem pmm_fill : (seg.fill a s).pmm = s.pmm := by
  rw [fill, pmm_writeBytes, pmm_writeBytes]

theorem bytes_fill (h : seg.filesz ≤ seg.memsz) (x : ℕ) : (seg.fill a s).bytes x =
    if a * 0x1000 + seg.virt % 0x1000 ≤ x ∧ x < a * 0x1000 + seg.virt % 0x1000 + seg.memsz then
      if x - (a * 0x1000 + seg.virt % 0x1000) < seg.filesz
        then seg.data (x - (a * 0x1000 + seg.virt % 0x1000)) else 0
    else s.bytes x := by
  rw [fill, bytes_writeBytes, bytes_writeBytes]
  simp only [Bytes.patch]
  split_ifs <;> first | rfl | omega

theorem mem_fill (h : seg.filesz ≤ seg.memsz) {f : ℕ} (hf : f * 0x1000 + 0x1000 ≤
      a * 0x1000 + seg.virt % 0x1000 ∨ a * 0x1000 + seg.virt % 0x1000 + seg.memsz ≤ f * 0x1000) :
    (seg.fill a s).mem f = s.mem f := by
  rw [fill, mem_writeBytes (by omega), mem_writeBytes hf]

end Segment

/-- The last segment that maps the page of `u`. -/
def lastMapping (segs : List Segment) (u : ℕ) : Option Segment :=
  (segs.filter fun seg => seg.Maps u).getLast?

/-- The segments of a plan. -/
def segments (ops : List LoadOp) : List Segment :=
  ops.filterMap fun
    | .segment seg => some seg
    | .stack => none

theorem lastMapping_concat (segs : List Segment) (seg : Segment) (u : ℕ) :
    lastMapping (segs ++ [seg]) u = if seg.Maps u then some seg else lastMapping segs u := by
  by_cases h : seg.Maps u <;> simp [lastMapping, h]

/-- A page that some segment maps has a last segment that maps it. -/
theorem exists_lastMapping {segs : List Segment} {seg : Segment} {u : ℕ} (h : seg ∈ segs)
    (hm : seg.Maps u) : ∃ seg', lastMapping segs u = some seg' := by
  have hmem : seg ∈ segs.filter fun seg => seg.Maps u := by simpa [h] using hm
  exact ⟨_, List.getLast?_eq_some_getLast (ne_nil_of_mem hmem)⟩

/-! ### One step -/

section Step

variable {s0 s s' s1 : Machine} {r i a : ℕ} {seg : Segment}

theorem Segment.Valid.low_pageAt (h : seg.Valid) (hi : i < seg.pages) :
    (pageAt seg.virt i).Low := by
  have hlow := h.low
  rw [PtOff.low_iff, vpn_pageAt]
  rw [h.pages_eq] at hi
  omega

theorem getLowerHalf_region {virt : ℕ} (ha : a < 2 ^ 52) :
    getLowerHalf ((getHigherHalf (a * 0x1000) + (virt &&& 0xfff)) % 2 ^ 64) =
      a * 0x1000 + virt % 0x1000 := by
  rw [Nat.and_two_pow_sub_one_eq_mod virt 12]
  unfold getLowerHalf getHigherHalf normalVmaOffset
  omega

theorem loadSegment_eq {cr3 : ℕ} (halloc : s.pmmAlloc seg.memsz = .ok (a * 0x1000, s1))
    (ha : a < 2 ^ 52) :
    loadSegment cr3 seg s =
      (seg.fill a s1).vmmRemapPages (a * 0x1000) seg.virt cr3 seg.pages segmentPerms >>=
        fun r => .ok r.2 := by
  rw [loadSegment, halloc, ok_bind]
  dsimp only [store]
  rw [getLowerHalf_region ha]
  rfl

/-- What the round for a segment does with the frames from `a` on. -/
structure SegmentStep (r : ℕ) (seg : Segment) (a : ℕ) (s s₁ s' : Machine) : Prop where
  extended : Extended s a seg.pages (seg.fill a s₁)
  mem : s₁.mem = s.mem
  map : ∃ ret, RangeOp r (pageAt seg.virt) seg.pages
    (fun i _ => some (frameAt (a * 0x1000) i, segmentPerms)) (fun _ => False)
    (seg.fill a s₁) (ret, s')

/-- The round for a segment, when it does not write to frames that are used. -/
theorem loadSegment_spec (hr : TreeOk s r) (hreg : LowRegular s.mem r)
    (h0 : s.pmm.ZeroUsed) (hv : seg.Valid)
    (hother : ∀ a s1, Allocated s.pmm seg.pages a s1.pmm → s1.mem = s.mem →
      ∀ f, s.pmm.Used f → (seg.fill a s1).mem f = s.mem f)
    (h : loadSegment (r * 0x1000) seg s = .ok s') :
    ∃ a s1, s.pmmAlloc seg.memsz = .ok (a * 0x1000, s1) ∧ SegmentStep r seg a s s1 s' := by
  obtain ⟨⟨phys, s1⟩, halloc, -⟩ := bind_eq_ok.1 h
  obtain ⟨a, rfl, hmem, ha⟩ := (Machine.pmmAlloc_spec (Or.inl h0)).of_ok halloc
  rw [loadSegment_eq halloc ha.lowest.lt_two_pow] at h
  obtain ⟨⟨ret, s2⟩, hmap, h⟩ := bind_eq_ok.1 h
  cases h
  have hext : Extended s a seg.pages (seg.fill a s1) :=
    ⟨by rw [Segment.pmm_fill]; exact ha, hother a s1 ha hmem⟩
  refine ⟨a, s1, halloc, hext, hmem, ret, ?_⟩
  refine (vmmRemapPages_spec (hext.tree hr) (fun i hi => ?_) hv.pages_le
    (show segmentPerms < 0x1000 by decide)).of_ok hmap
  exact (hreg _ (hv.low_pageAt hi)).congr (hext.table hr)

theorem SegmentStep.grown (h : SegmentStep r seg a s s1 s') (hv : seg.Valid) (hr : TreeOk s r)
    (hreg : LowRegular s.mem r) (h0 : s.pmm.ZeroUsed) :
    Grown r s s' := by
  obtain ⟨ret, hmap⟩ := h.map
  refine h.extended.grown hr hreg h0 hmap.touch ?_
  rintro v ⟨i, hi, rfl⟩
  exact hv.low_pageAt hi

/-- The stack is mapped where nothing is mapped. -/
structure StackStep (r a : ℕ) (s s₁ s' : Machine) : Prop where
  reserved : Reserved s a userStackPages s₁
  map : ∃ ret, RangeOp r (pageAt userStackStart) userStackPages
    (fun i o => some (o.getD (frameAt (a * 0x1000) i, segmentPerms))) (fun o => o.isSome)
    s₁ (ret, s')

theorem userStackPages_eq : userStackPages = 512 := by decide

theorem userStackStart_eq : userStackStart = 0x7FFFFFE00000 := by decide

theorem pagesOf_userStackSize : pagesOf userStackSize = userStackPages := by decide

theorem low_stackPage (hi : i < userStackPages) : (pageAt userStackStart i).Low := by
  rw [userStackPages_eq] at hi
  rw [PtOff.low_iff, vpn_pageAt, userStackStart_eq]
  omega

theorem loadStack_spec (hr : TreeOk s r) (hreg : LowRegular s.mem r)
    (h0 : s.pmm.ZeroUsed) (h : loadStack (r * 0x1000) s = .ok s') :
    ∃ a s1, StackStep r a s s1 s' := by
  obtain ⟨⟨phys, s1⟩, halloc, h⟩ := bind_eq_ok.1 h
  obtain ⟨⟨ret, s2⟩, hmap, h⟩ := bind_eq_ok.1 h
  cases h
  obtain ⟨a, rfl, hmem, ha⟩ := (Machine.pmmAlloc_spec (Or.inl h0)).of_ok halloc
  rw [pagesOf_userStackSize] at ha
  have hlt := ha.lowest.lt_two_pow
  dsimp only [store] at hmap
  rw [getLowerHalf_getHigherHalf (by omega)] at hmap
  have hres : Reserved s a userStackPages
      (s1.writeBytes (a * 0x1000) userStackSize fun _ => 0) := by
    refine ⟨by rw [pmm_writeBytes]; exact ha, fun f hf => hmem ▸ mem_writeBytes ?_⟩
    rw [userStackPages_eq] at hf
    rw [userStackSize]
    omega
  refine ⟨a, _, hres, ret, ?_⟩
  refine (vmmMapPages_spec (hres.tree hr) (fun i hi => ?_) (by decide) (by decide)
    (by decide)).of_ok hmap
  exact hres.regular hr (hreg _ (low_stackPage hi))

end Step

/-! ### All steps -/

/-- The page of `u` is mapped to a frame of its own, where `u` has the byte `b`, or what was there.
-/
structure HasByte (r : ℕ) (s₀ s : Machine) (u : ℕ) (b : Option UInt8) (f : ℕ) : Prop where
  mapped : translate s.mem r (vmmVirtToOffs u) = some (f, segmentPerms)
  fresh : ¬ s₀.pmm.Used f
  used : s.pmm.Used f
  noTable : ¬ IsPageTable s.mem r f
  byte : s.bytes (f * 0x1000 + u % 0x1000) = b.getD (s₀.bytes (f * 0x1000 + u % 0x1000))

/-- The segments of `segs` were loaded into the address space with root `r`. -/
structure Loaded (r : ℕ) (s₀ : Machine) (segs : List Segment) (s : Machine) : Prop
    extends Grown r s₀ s where
  free : ∀ f, ¬ s.pmm.Used f → s.mem f = s₀.mem f
  pages : ∀ u seg, u < 2 ^ 47 → lastMapping segs u = some seg →
    ∃ f, HasByte r s₀ s u (seg.byteAt u) f

section Steps

variable {s0 s s' s1 : Machine} {r a n f u : ℕ} {V : Set PtOff} {b : Option UInt8}
  {segs : List Segment} {seg : Segment}

theorem bytes_frame (h : s'.mem f = s.mem f) {k : ℕ} (hk : k < 0x1000) :
    s'.bytes (f * 0x1000 + k) = s.bytes (f * 0x1000 + k) := by
  have hdiv : (f * 0x1000 + k) / 0x1000 = f := by omega
  exact bytes_congr (by rw [hdiv, h])

/-- A page that stays mapped keeps its bytes. -/
theorem HasByte.step (h : HasByte r s0 s u b f) (hr : TreeOk s r) (he : Extended s a n s1)
    (ht : Touch r V s1 s')
    (htr : translate s'.mem r (vmmVirtToOffs u) = translate s.mem r (vmmVirtToOffs u)) :
    HasByte r s0 s' u b f where
  mapped := htr.trans h.mapped
  fresh := h.fresh
  used := ht.used_of_used (he.used h.used)
  noTable := he.not_isTable hr ht h.used h.noTable
  byte := by
    rw [bytes_frame (he.kept hr ht h.used h.noTable) (Nat.mod_lt u (by decide))]
    exact h.byte

/-- A frame that stays free is not written. -/
theorem free_step (he : Reserved s a n s1) (ht : Touch r V s1 s')
    (hf : ¬ s'.pmm.Used f) : s'.mem f = s.mem f := by
  rw [ht.frame f fun ⟨π, hπ⟩ => hf (ht.ok.used π f hπ)]
  exact he.other f fun hb => hf (ht.used_of_used ((he.used f).2 (Or.inl hb)))

theorem Segment.Fits.reserved (hfit : seg.Fits) (hv : seg.Valid)
    (ha : Allocated s.pmm seg.pages a s1.pmm) (hmem : s1.mem = s.mem) :
    Reserved s a seg.pages (seg.fill a s1) where
  alloc := by rwa [Segment.pmm_fill]
  other f hf := by
    rw [Segment.Fits] at hfit
    rw [Segment.mem_fill hv.filesz_le (by omega), hmem]

theorem Segment.Maps.pageAt (h : seg.Maps u) :
    Machine.pageAt seg.virt (u / 0x1000 - seg.virt / 0x1000) = vmmVirtToOffs u := by
  have h1 := h.1
  rw [Machine.pageAt, vmmVirtToOffs_eq_iff]
  omega

theorem Segment.maps_of_pageAt (hv : seg.Valid) (hu : u < 2 ^ 47) {i : ℕ} (hi : i < seg.pages)
    (h : pageAt seg.virt i = vmmVirtToOffs u) : seg.Maps u := by
  have hlow := hv.low
  rw [pageAt, vmmVirtToOffs_eq_iff] at h
  rw [Segment.Maps]
  rw [hv.pages_eq] at hi ⊢
  omega

theorem Segment.Maps.bytes_fill (h : seg.Maps u) (hv : seg.Valid) :
    (seg.fill a s).bytes ((a + (u / 0x1000 - seg.virt / 0x1000)) * 0x1000 + u % 0x1000) =
      (seg.byteAt u).getD
        (s.bytes ((a + (u / 0x1000 - seg.virt / 0x1000)) * 0x1000 + u % 0x1000)) := by
  have h1 := h.1
  rw [Segment.bytes_fill hv.filesz_le, Segment.byteAt]
  by_cases hin : seg.virt ≤ u ∧ u < seg.virt + seg.memsz
  · have hoff : (a + (u / 0x1000 - seg.virt / 0x1000)) * 0x1000 + u % 0x1000 =
        a * 0x1000 + seg.virt % 0x1000 + (u - seg.virt) := by omega
    rw [if_pos hin, hoff, if_pos (by omega), Nat.add_sub_cancel_left]
    rfl
  · rw [if_neg hin, if_neg (by omega)]
    rfl

theorem SegmentStep.hasByte (h : SegmentStep r seg a s s1 s')
    (hres : Reserved s a seg.pages (seg.fill a s1)) (hr : TreeOk s r)
    (hs0 : ∀ f, s0.pmm.Used f → s.pmm.Used f)
    (hfree : ∀ f, ¬ s.pmm.Used f → s.mem f = s0.mem f) (hv : seg.Valid) (hm : seg.Maps u) :
    HasByte r s0 s' u (seg.byteAt u) (a + (u / 0x1000 - seg.virt / 0x1000)) := by
  obtain ⟨ret, hmap⟩ := h.map
  obtain ⟨i, hi⟩ : ∃ i, u / 0x1000 - seg.virt / 0x1000 = i := ⟨_, rfl⟩
  have hbyte := hm.bytes_fill (a := a) (s := s1) hv
  have hpage := hm.pageAt
  rw [hi] at hbyte hpage ⊢
  have hlt : i < seg.pages := by
    obtain ⟨h1, h2⟩ := hm
    omega
  have hused : ¬ s.pmm.Used (a + i) := hres.not_used (by omega) (by omega)
  have hnew : (seg.fill a s1).pmm.Used (a + i) := (hres.used _).2 (Or.inl ⟨by omega, by omega⟩)
  have hno : ¬ IsPageTable s'.mem r (a + i) := by
    rintro ⟨π, hπ⟩
    rcases hmap.touch.fresh π _ hπ with hold | ⟨hf, -⟩
    · exact hused (hr.used π _ (h.extended.walk hr π ▸ hold))
    · exact hf hnew
  have hmod := Nat.mod_lt u (show 0 < 0x1000 by decide)
  refine ⟨?_, mt (hs0 _) hused, hmap.touch.used_of_used hnew, hno, ?_⟩
  · have hin := hmap.inside i hlt
    have hframe : frameAt (a * 0x1000) i = a + i := by
      have := hres.lt_max (show a + i < a + seg.pages by omega)
      have := s.pmm.maxPage_le
      rw [frameAt]
      omega
    rwa [hpage, hframe] at hin
  · rw [bytes_frame (hmap.touch.frame _ hno) hmod, hbyte, bytes_frame (congrFun h.mem _) hmod,
      bytes_frame (hfree _ hused) hmod]

/-- **Loading a segment that fits.** -/
theorem Loaded.segment (h : Loaded r s0 segs s) (hv : seg.Valid) (hfit : seg.Fits)
    (hrun : loadSegment (r * 0x1000) seg s = .ok s') : Loaded r s0 (segs ++ [seg]) s' := by
  obtain ⟨a, s1, -, hstep⟩ := loadSegment_spec h.tree h.regular h.reserved hv
    (fun a s1 ha hmem f hf => (hfit.reserved hv ha hmem).extended.other f hf) hrun
  have ha := hstep.extended.alloc
  rw [Segment.pmm_fill] at ha
  have hres := hfit.reserved hv ha hstep.mem
  obtain ⟨ret, hmap⟩ := hstep.map
  have hfree : ∀ f, ¬ s'.pmm.Used f → s'.mem f = s.mem f := fun f hf =>
    free_step hres hmap.touch hf
  refine ⟨h.toGrown.trans (hstep.grown hv h.tree h.regular h.reserved), fun f hf => ?_,
    fun u sg hu hlast => ?_⟩
  · rw [hfree f hf, h.free f fun hs => hf (hmap.touch.used_of_used (hres.extended.used hs))]
  · rw [lastMapping_concat] at hlast
    split_ifs at hlast with hm
    · cases hlast
      exact ⟨_, hstep.hasByte hres h.tree h.used h.free hv hm⟩
    · obtain ⟨f, hf⟩ := h.pages u sg hu hlast
      refine ⟨f, hf.step h.tree hstep.extended hmap.touch ?_⟩
      rw [hmap.touch.translate, hstep.extended.translate h.tree]
      rintro ⟨i, hi, he⟩
      exact hm (Segment.maps_of_pageAt hv hu hi he)

theorem StackStep.grown (h : StackStep r a s s1 s') (hr : TreeOk s r)
    (hreg : LowRegular s.mem r)
    (h0 : s.pmm.ZeroUsed) : Grown r s s' := by
  obtain ⟨ret, hmap⟩ := h.map
  refine h.reserved.extended.grown hr hreg h0 hmap.touch ?_
  rintro v ⟨i, hi, rfl⟩
  exact low_stackPage hi

/-- The stack changes no page that is mapped. -/
theorem StackStep.translate (h : StackStep r a s s1 s') (hr : TreeOk s r) {v : PtOff} {x : ℕ × ℕ}
    (hv : translate s.mem r v = some x) : translate s'.mem r v = some x := by
  obtain ⟨ret, hmap⟩ := h.map
  rw [← h.reserved.translate hr] at hv
  by_cases hin : ∃ i < userStackPages, pageAt userStackStart i = v
  · obtain ⟨i, hi, rfl⟩ := hin
    rw [hmap.inside i hi, hv]
    rfl
  · rw [hmap.touch.translate v hin, hv]

theorem Loaded.stack (h : Loaded r s0 segs s) (hrun : loadStack (r * 0x1000) s = .ok s') :
    Loaded r s0 segs s' := by
  obtain ⟨a, s1, hstep⟩ := loadStack_spec h.tree h.regular h.reserved hrun
  obtain ⟨ret, hmap⟩ := hstep.map
  have hext := hstep.reserved.extended
  refine ⟨h.toGrown.trans (hstep.grown h.tree h.regular h.reserved), fun f hf => ?_,
    fun u seg hu hlast => ?_⟩
  · rw [free_step hstep.reserved hmap.touch hf,
      h.free f fun hs => hf (hmap.touch.used_of_used (hext.used hs))]
  · obtain ⟨f, hf⟩ := h.pages u seg hu hlast
    refine ⟨f, hf.step h.tree hext hmap.touch ?_⟩
    rw [hstep.translate h.tree hf.mapped, hf.mapped]

/-- **After the steps of a plan, every page is that of the last segment that maps it.** -/
theorem loaded_runOps {ops : List LoadOp} (h : Loaded r s0 segs s)
    (hv : ∀ seg ∈ segments ops, seg.Valid) (hfit : ∀ seg ∈ segments ops, seg.Fits)
    (hrun : runOps (r * 0x1000) ops s = .ok s') : Loaded r s0 (segs ++ segments ops) s' := by
  induction ops generalizing s segs with
  | nil =>
    cases hrun
    rwa [segments, filterMap_nil, append_nil]
  | cons op ops ih =>
    obtain ⟨s2, hop, hrest⟩ := bind_eq_ok.1 hrun
    cases op with
    | segment seg =>
      have hcons : segments (.segment seg :: ops) = seg :: segments ops := rfl
      rw [hcons] at hv hfit ⊢
      rw [append_cons]
      rw [forall_mem_cons] at hv hfit
      exact ih (h.segment hv.1 hfit.1 hop) hv.2 hfit.2 hrest
    | stack => exact ih (h.stack hop) hv hfit hrest

end Steps

end Elf

end DripOS
