import DripOS.Mm.PageTree

/-!
# Mapping, remapping and unmapping pages

The three loops of `vmm.c` that change an address space call `vmm_get_table` for every page.  It
creates missing tables and splits an entry of 2 MiB into 512 entries of 4 KiB; both are grafts in
the sense of `DripOS.Mm.PageTree`, so that no translation changes (`vmmGetTable_spec`).  The loops
then write one entry of the last level (`Touch.setLeaf`).

`mapPages_refine` : on the partial map `translate` from virtual pages to frames and flags,
`vmm_map_pages` adds the pages that were not mapped, `vmm_remap_pages` sets all pages and
`vmm_unmap_pages` removes them.
-/

namespace DripOS

open TableTree PtOff List Option Nat

/-! ### Paths of a page -/

theorem exists_cons_suffix {α : Type*} {π l : List α} (h : π <:+ l) (a : α) :
    ∃ x, x :: π <:+ a :: l := by
  obtain ⟨p, rfl⟩ := h
  induction p generalizing a with
  | nil => exact ⟨a, suffix_refl _⟩
  | cons b p ih =>
    obtain ⟨x, hx⟩ := ih b
    exact ⟨x, hx.trans (suffix_cons a _)⟩

/-- The levels of the walk of a page. -/
theorem PtOff.cons_suffix_path {u : PtOff} {i : Fin 512} {π : List (Fin 512)}
    (h : i :: π <:+ u.path) :
    i = u.p1Off ∧ π = u.tables ∨ i = u.p2Off ∧ π = [u.p3Off, u.p4Off] ∨
      i = u.p3Off ∧ π = [u.p4Off] ∨ i = u.p4Off ∧ π = [] := by
  simpa [path, suffix_cons_iff] using h

/-- A page is not mapped when an entry on its path is not present. -/
theorem translate_eq_none {mem : ℕ → Fin 512 → ℕ} {r t : ℕ} {u : PtOff} {i : Fin 512}
    {π : List (Fin 512)} (hs : i :: π <:+ u.path) (ht : pageWalk mem r π = some t)
    (hp : ¬ Present (mem t i)) : translate mem r u = none := by
  have hnone : pageWalk mem r (i :: π) = none := by
    rw [pageWalk_cons i ht, pageChild_eq_none_of_not_present hp]
  rw [translate_eq]
  rcases cons_suffix_path hs with ⟨rfl, rfl⟩ | ⟨rfl, rfl⟩ | ⟨rfl, rfl⟩ | ⟨rfl, rfl⟩
  · rw [ht]
    exact if_neg hp
  · rw [hnone, ht]
    exact if_neg fun h => hp h.1
  · rw [pageWalk_cons_none _ hnone, hnone, ht]
    exact if_neg fun h => hp h.1
  · have h2 := pageWalk_cons_none u.p3Off hnone
    rw [pageWalk_cons_none _ h2, h2, hnone]
    rfl

namespace Machine

variable {s : Machine} {r : ℕ} {V : Set PtOff} {op : ℕ → Option (ℕ × ℕ) → Option (ℕ × ℕ)}
  {bad : Option (ℕ × ℕ) → Prop} {res : ℕ × Machine}

/-! ### Writing to memory -/

theorem mem_setEntry (t : Ptr) (i : Fin 512) (e f : ℕ) (j : Fin 512) :
    (s.setEntry t i e).mem f j = if f = tableFrame t ∧ j = i then e else s.mem f j := rfl

theorem mem_writePage (t : Ptr) (c : Fin 512 → ℕ) (f : ℕ) :
    (s.writePage t c).mem f = if f = tableFrame t then c else s.mem f := rfl

theorem writePage_writePage (t : Ptr) (c c' : Fin 512 → ℕ) :
    (s.writePage t c).writePage t c' = s.writePage t c' := by
  simp only [writePage, mk.injEq, and_true]
  funext f
  split_ifs <;> rfl

theorem pmmAlloc_spec {size : ℕ} (h0 : s.pmm.ZeroUsed ∨ Pmm.pagesOf size = 1) :
    Ensures (fun e => e = .noFreeMemory ∧ ∀ a, ¬ s.pmm.Run a (Pmm.pagesOf size)) (s.pmmAlloc size)
      fun r => ∃ a, r.1 = a * 0x1000 ∧ r.2.mem = s.mem ∧
        Pmm.Allocated s.pmm (Pmm.pagesOf size) a r.2.pmm :=
  ((Pmm.pmmAlloc_spec h0).mono fun _ ⟨a, ha, halloc⟩ => ⟨a, ha, rfl, halloc⟩).map

theorem pmmAlloc_page : EnsuresFree (s.pmmAlloc 0x1000) fun r =>
    ∃ f, r.1 = f * 0x1000 ∧ r.2.mem = s.mem ∧ Pmm.Allocated s.pmm 1 f r.2.pmm :=
  (pmmAlloc_spec (Or.inr Pmm.pagesOf_page)).mono_allow fun _ h => h.1

/-- Filling a new frame and storing its entry is a graft. -/
theorem grafted {s1 : Machine} {f t : ℕ} {table : Ptr} (htab : tableFrame table = t)
    (ht : s.pmm.Used t) (i : Fin 512) (c : Fin 512 → ℕ) (hmem : s1.mem = s.mem)
    (ha : Pmm.Allocated s.pmm 1 f s1.pmm) :
    Grafted s ((s1.writePage (getHigherHalf (f * 0x1000)) c).setEntry table i (tableEntry f))
      t i f c := by
  have hf := tableFrame_getHigherHalf ha.lowest.lt_two_pow
  have hne : f ≠ t := by
    rintro rfl
    exact ha.lowest.1.2 f le_rfl (lt_succ_self f) ht
  refine ⟨ha, ?_, ?_, ?_⟩
  · rw [mem_setEntry, htab, if_pos ⟨rfl, rfl⟩]
  · funext j
    rw [mem_setEntry, htab, if_neg fun h => hne h.1, mem_writePage, hf, if_pos rfl]
  · intro g j hg hgt
    rw [mem_setEntry, htab, if_neg hgt, mem_writePage, hf, if_neg hg, hmem]

/-! ### Making sure that a table exists -/

/-- What the caller of `vmm_ensure_table` may rely on: no translation changes, and there is a table
at the end of the path. -/
structure TableAt (s : Machine) (r : ℕ) (V : Set PtOff) (table : Ptr) (i : Fin 512)
    (π : List (Fin 512)) (s' : Machine) : Prop where
  touch : Touch r V s s'
  translate : ∀ u, DripOS.translate s'.mem r u = DripOS.translate s.mem r u
  table : pageWalk s'.mem r (i :: π) = some (tableFrame (s'.traversePageTable table i))

theorem TableAt.of_grafted {s' : Machine} {f t : ℕ} {table : Ptr} {i : Fin 512}
    {π : List (Fin 512)} {c : Fin 512 → ℕ} (htab : tableFrame table = t)
    (hg : GraftedAt r π s s' t i f c)
    (habs : π.length < 2 → ∀ j, ¬ Present (c j)) (hclean : ∀ j, ¬ Present (c j) → c j = 0)
    (hV : ∃ v ∈ V, i :: π <:+ v.path)
    (htr : ∀ u : PtOff, i :: π <:+ u.tables →
      DripOS.translate s'.mem r u = DripOS.translate s.mem r u) :
    TableAt s r V table i π s' := by
  obtain ⟨htouch, htrans⟩ := hg.touch V habs hclean hV htr
  refine ⟨htouch, htrans, ?_⟩
  rw [hg.walk_eq, if_pos rfl, tableFrame_traversePageTable, entries, htab, hg.entry,
    entryFrame_tableEntry hg.alloc.lowest.lt_two_pow]

section Ensure

variable {table : Ptr} {t : ℕ} {i : Fin 512} {π : List (Fin 512)}

section

variable (hok : TreeOk s r) (htab : tableFrame table = t) (ht : pageWalk s.mem r π = some t)
  (hlen : π.length ≤ 2)
include hok htab ht hlen

theorem TableAt.refl (hp : Present (s.mem t i)) (hh : π.length ≠ 0 → ¬ Huge (s.mem t i)) :
    TableAt s r V table i π s := by
  refine ⟨Touch.refl hok, fun _ => rfl, ?_⟩
  rw [tableFrame_traversePageTable, entries, htab, pageWalk_cons i ht, pageChild_eq_some hlen hp hh]

theorem TableAt.of_absent {s' : Machine} {f : ℕ} (hp : ¬ Present (s.mem t i))
    (hg : Grafted s s' t i f fun _ => 0) (hV : ∃ v ∈ V, i :: π <:+ v.path) :
    TableAt s r V table i π s' := by
  have hat : GraftedAt r π s s' t i f fun _ => 0 :=
    ⟨hg, hok, ht, hlen, pageChild_eq_none_of_not_present hp π.length,
      fun _ => pageChild_eq_none_of_not_present not_present_zero _⟩
  refine TableAt.of_grafted htab hat (fun _ _ => not_present_zero) (fun _ _ => rfl) hV ?_
  -- before, the entry is not present; afterwards, no entry of the new table is
  intro u hu
  obtain ⟨x, hx⟩ := exists_cons_suffix hu u.p1Off
  have hnew : pageWalk s'.mem r (i :: π) = some f := hat.walk_eq_some.2 (Or.inl ⟨rfl, rfl⟩)
  rw [translate_eq_none (hu.trans (suffix_cons u.p1Off _)) ht hp,
    translate_eq_none hx hnew (by rw [hg.page]; exact not_present_zero)]

theorem vmmEnsureTable_spec (hh : π.length ≠ 0 → Present (s.mem t i) → ¬ Huge (s.mem t i))
    (hV : ∃ v ∈ V, i :: π <:+ v.path) :
    EnsuresFree (s.vmmEnsureTable table i) (TableAt s r V table i π) := by
  unfold vmmEnsureTable
  have hentry : s.entries table i = s.mem t i := by rw [entries, htab]
  by_cases hp : Present (s.mem t i)
  · rw [hentry, if_neg hp]
    exact TableAt.refl hok htab ht hlen hp fun h => hh h hp
  · rw [hentry, if_pos (not_not.1 hp)]
    refine pmmAlloc_page.bind ?_
    rintro ⟨-, s1⟩ ⟨f, rfl, hmem, ha⟩
    exact TableAt.of_absent hok htab ht hlen hp
      (grafted htab (hok.used π t ht) i (fun _ => 0) hmem ha) hV

end

/-- The entries that replace an entry of 2 MiB. -/
def splitEntries (e : ℕ) (j : Fin 512) : ℕ :=
  ((e &&& vmm4kPermMask) + j.val * 0x1000) % 2 ^ 64 ||| (e &&& 0xfff)

/-- The entries that `vmm_remap_to_4k` writes map what the entry of 2 MiB mapped. -/
theorem leafOf_splitEntries {e : ℕ} (hp : Present e) (hh : Huge e) (ha : entryFrame e % 512 = 0)
    (j : Fin 512) : leafOf (splitEntries e j) = hugeLeafOf e j := by
  have hlt := entryFrame_lt e
  have hmod : e &&& 0xfff = e % 0x1000 := entryFlags_eq e
  have hfl : e &&& 0xfff < 0x1000 := by omega
  have hpos : ((e &&& vmm4kPermMask) + j.val * 0x1000) % 2 ^ 64 =
      (entryFrame e + j.val) * 0x1000 := by
    rw [and_permMask]
    omega
  have hpfl : Present (e &&& 0xfff) := by
    rw [present_iff] at hp ⊢
    omega
  rw [splitEntries, hpos, leafOf, if_pos ((present_or hfl).2 hpfl), entryFrame_or (by omega) hfl,
    entryFlags_or hfl, hugeLeafOf, if_pos ⟨hp, hh⟩, entryFlags]

theorem TableAt.trans {s1 s2 : Machine} (h : TableAt s r V table i π s1)
    (h' : TableAt s1 r V table i π s2) : TableAt s r V table i π s2 :=
  ⟨h.touch.trans h'.touch, fun u => (h'.translate u).trans (h.translate u), h'.table⟩

variable (hok : TreeOk s r) (htab : tableFrame table = t) (ht : pageWalk s.mem r π = some t)
  (hlen : π.length = 2) (hV : ∃ v ∈ V, i :: π <:+ v.path)
include hok htab ht hlen hV

/-- A table of 512 entries in the place of an entry of 2 MiB. -/
theorem TableAt.of_split {s' : Machine} {f : ℕ} (hp : Present (s.mem t i)) (hh : Huge (s.mem t i))
    (halign : entryFrame (s.mem t i) % 512 = 0)
    (hg : Grafted s s' t i f (splitEntries (s.mem t i))) : TableAt s r V table i π s' := by
  have hsplit := leafOf_splitEntries hp hh halign
  have hpc : ∀ j, Present (splitEntries (s.mem t i) j) := by
    intro j hn
    have := hsplit j
    rw [leafOf, if_neg (not_not.2 hn), hugeLeafOf, if_pos ⟨hp, hh⟩] at this
    cases this
  have hnone : pageChild π.length (s.mem t i) = none := by
    rw [hlen, pageChild, if_neg fun h => h.2 hh]
  have hat : GraftedAt r π s s' t i f (splitEntries (s.mem t i)) :=
    ⟨hg, hok, ht, hlen.le, hnone, fun j => by rw [hlen]; rfl⟩
  refine TableAt.of_grafted htab hat (fun h => by omega) (fun j h => absurd (hpc j) h) hV ?_
  intro u hu
  have hu' : i :: π = u.tables := hu.eq_of_length (by simp [hlen])
  obtain ⟨rfl, rfl⟩ := List.cons.inj hu'
  have hold : pageWalk s.mem r u.tables = none := by
    rw [pageWalk_cons _ ht, hnone]
  rw [translate_eq, translate_eq, hat.walk_eq, if_pos rfl, hold, ht]
  simp only [hg.page, hsplit]

theorem vmmRemapTo4k_spec (hp : Present (s.mem t i)) (hh : Huge (s.mem t i))
    (halign : entryFrame (s.mem t i) % 512 = 0) :
    EnsuresFree (s.vmmRemapTo4k table i) (TableAt s r V table i π) := by
  refine pmmAlloc_page.bind ?_
  rintro ⟨-, s1⟩ ⟨f, rfl, hmem, ha⟩
  have hentry : s1.entries table i = s.mem t i := by rw [entries, htab, hmem]
  simp only [hentry, clearPage, writePage_writePage]
  exact TableAt.of_split hok htab ht hlen hV hp hh halign
    (grafted htab (hok.used π t ht) i (splitEntries (s.mem t i)) hmem ha)

theorem vmmGetTableP1_spec
    (halign : Present (s.mem t i) → Huge (s.mem t i) → entryFrame (s.mem t i) % 512 = 0) :
    EnsuresFree (s.vmmGetTableP1 table i) (TableAt s r V table i π) := by
  unfold vmmGetTableP1 getEntry
  have hentry : s.entries table i = s.mem t i := by rw [entries, htab]
  rw [hentry]
  by_cases hp : Present (s.mem t i)
  · by_cases hh : Huge (s.mem t i)
    · -- split, then find the new table present
      rw [if_neg fun h => hh h.1, if_pos ⟨hh, hp⟩]
      refine (vmmRemapTo4k_spec hok htab ht hlen hV hp hh (halign hp hh)).bind fun s1 h1 => ?_
      have ht1 := h1.touch.walk π t ht
      have hp1 : Present (s1.mem t i) ∧ ¬ Huge (s1.mem t i) := by
        by_contra hn
        have := h1.table
        rw [pageWalk_cons i ht1, hlen, pageChild, if_neg hn] at this
        cases this
      exact (vmmEnsureTable_spec h1.touch.ok htab ht1 hlen.le (fun _ _ => hp1.2) hV).mono
        fun s2 h2 => h1.trans h2
    · rw [if_pos ⟨not_not.1 hh, hp⟩]
      exact TableAt.refl hok htab ht hlen.le hp fun _ => hh
  · rw [if_neg fun h => hp h.2, if_neg fun h => hp h.2]
    exact vmmEnsureTable_spec hok htab ht hlen.le (fun _ h => absurd h hp) hV

end Ensure

/-- **`vmm_get_table` finds the table of the last level**, and changes no translation. -/
theorem vmmGetTable_spec {v : PtOff} (hok : TreeOk s r) (hreg : Regular s.mem r v) (hv : v ∈ V) :
    EnsuresFree (s.vmmGetTable v (r * 0x1000)) fun res =>
      Touch r V s res.2 ∧ (∀ u, translate res.2.mem r u = translate s.mem r u) ∧
        pageWalk res.2.mem r v.tables = some (tableFrame res.1.p1) := by
  have hsuf : ∀ {i π}, i :: π <:+ v.path → ∃ v ∈ V, i :: π <:+ v.path := fun h => ⟨v, hv, h⟩
  have hp3 : [v.p3Off, v.p4Off] <:+ v.path := by simp [path, suffix_cons_iff]
  have hp4 : [v.p4Off] <:+ v.path := by simp [path, suffix_cons_iff]
  refine (vmmEnsureTable_spec hok (tableFrame_getHigherHalf hok.root_lt)
    (rfl : pageWalk s.mem r [] = some r) (by simp) (by simp) (hsuf hp4)).bind fun s1 h1 => ?_
  refine (vmmEnsureTable_spec h1.touch.ok rfl h1.table (by simp)
    (fun _ => (h1.touch.regular hreg).noGiant _ h1.table) (hsuf hp3)).bind fun s2 h2 => ?_
  refine (vmmGetTableP1_spec h2.touch.ok rfl h2.table (by simp) (hsuf (suffix_cons v.p1Off _))
    ((h2.touch.regular (h1.touch.regular hreg)).aligned _ h2.table)).bind fun s3 h3 => ?_
  exact ⟨(h1.touch.trans h2.touch).trans h3.touch, fun u => by
    rw [h3.translate, h2.translate, h1.translate], h3.table⟩

/-! ### Writing an entry of the last level -/

section Leaf

variable {table : Ptr} {v : PtOff} {e : ℕ}

theorem pageWalk_setLeaf (hok : TreeOk s r)
    (ht : pageWalk s.mem r v.tables = some (tableFrame table))
    (π : List (Fin 512)) :
    pageWalk (s.setEntry table v.p1Off e).mem r π = pageWalk s.mem r π := by
  refine walk_congr (fun π t i hπ => ?_) π
  rw [mem_setEntry]
  split_ifs with h
  · -- entries of the last level have no children
    rw [h.1] at hπ
    rw [hok.distinct _ _ _ hπ ht]
    rfl
  · rfl

theorem mem_setLeaf (hok : TreeOk s r)
    (ht : pageWalk s.mem r v.tables = some (tableFrame table))
    {π : List (Fin 512)} {t : ℕ} {i : Fin 512} (hπ : pageWalk s.mem r π = some t)
    (hne : i :: π ≠ v.path) : (s.setEntry table v.p1Off e).mem t i = s.mem t i := by
  rw [mem_setEntry, if_neg]
  rintro ⟨rfl, rfl⟩
  exact hne (by rw [hok.distinct _ _ _ hπ ht, path])

/-- **Writing an entry of the last level changes one page.** -/
theorem touch_setLeaf (hok : TreeOk s r)
    (ht : pageWalk s.mem r v.tables = some (tableFrame table))
    (he : Present e ∨ e = 0) :
    Touch r {v} s (s.setEntry table v.p1Off e) ∧
      translate (s.setEntry table v.p1Off e).mem r v = leafOf e := by
  have hw := @pageWalk_setLeaf s r table v e hok ht
  have hm := @mem_setLeaf s r table v e hok ht
  have hshort : ∀ {i : Fin 512} {π : List (Fin 512)}, π.length ≤ 2 → i :: π ≠ v.path := by
    intro i π hlen he
    have := congrArg List.length he
    simp only [path, length_cons] at this
    omega
  refine ⟨⟨?_, ?_, fun π t h => (hw π).trans h, fun π t h => Or.inl ((hw π).symm.trans h),
    ?_, ?_, ?_, ?_, ?_, Pmm.Balanced.refl _⟩, ?_⟩
  · refine hok.congr hw fun t ht => ?_
    obtain ⟨π, h⟩ := ht
    exact hok.used π t h
  · intro u hu
    refine translate_congr_path fun i π t hs hπ => hm hπ fun h => hu (path_inj ?_)
    rw [h] at hs
    exact (hs.eq_of_length rfl).symm
  · intro f
    refine ⟨Or.inl, fun h => h.elim id fun hf => ?_⟩
    obtain ⟨π, hπ⟩ := hf
    exact hok.used π f ((hw π).symm.trans hπ)
  · intro f hf
    funext i
    rw [mem_setEntry, if_neg]
    rintro ⟨rfl, -⟩
    exact hf ⟨_, (hw _).trans ht⟩
  · intro π t i hπ hi
    exact hm hπ fun h => hi v rfl (h ▸ suffix_refl _)
  · intro π t i hπ hp
    rw [hw] at hπ
    rw [mem_setEntry] at hp ⊢
    split_ifs at hp ⊢ with h
    · exact Or.inl (he.resolve_left hp)
    · exact Or.inr ⟨hπ, rfl⟩
  · intro π t i hlen hπ _ _
    rw [hw] at hπ
    exact ⟨hπ, hm hπ (hshort hlen)⟩
  · rw [translate_eq, hw, ht]
    simp [mem_setEntry]

end Leaf

/-! ### The loops -/

/-- The virtual page number `i` of a range that starts at `virt`. -/
def pageAt (virt i : ℕ) : PtOff := vmmVirtToOffs ((virt + i * 0x1000) % 2 ^ 64)

/-- The frame number `i` of a range that starts at `phys`. -/
def frameAt (phys i : ℕ) : ℕ := (phys / 0x1000 + i) % 2 ^ 52

theorem vpn_pageAt (virt i : ℕ) : (pageAt virt i).vpn = (virt / 0x1000 + i) % 2 ^ 36 := by
  rw [pageAt, vpn_vmmVirtToOffs]
  omega

theorem pageAt_masked (virt i : ℕ) :
    vmmVirtToOffs (((virt &&& vmm4kPermMask) + i * 0x1000) % 2 ^ 64) = pageAt virt i := by
  rw [pageAt, vmmVirtToOffs_eq_iff, and_permMask, entryFrame_eq]
  omega

theorem frameAt_masked (phys i : ℕ) :
    ((phys &&& vmm4kPermMask) + i * 0x1000) % 2 ^ 64 = frameAt phys i * 0x1000 := by
  rw [frameAt, and_permMask, entryFrame_eq]
  omega

theorem frameAt_lt (phys i : ℕ) : frameAt phys i < 2 ^ 52 := mod_lt _ (by decide)

theorem pageAt_inj {virt count i j : ℕ} (hc : count ≤ 2 ^ 36) (hi : i < count) (hj : j < count)
    (h : pageAt virt i = pageAt virt j) : i = j := by
  have := congrArg vpn h
  rw [vpn_pageAt, vpn_pageAt] at this
  omega

/-- What a loop over the pages `page 0`, …, `page (n - 1)` achieves: each page is changed by `op`,
and the result is `1` if some page was `bad`. -/
structure RangeOp (r : ℕ) (page : ℕ → PtOff) (n : ℕ)
    (op : ℕ → Option (ℕ × ℕ) → Option (ℕ × ℕ)) (bad : Option (ℕ × ℕ) → Prop) (s : Machine)
    (res : ℕ × Machine) : Prop where
  touch : Touch r {v | ∃ i < n, page i = v} s res.2
  inside : ∀ i < n, translate res.2.mem r (page i) = op i (translate s.mem r (page i))
  ret : res.1 = 1 ∧ (∃ i < n, bad (translate s.mem r (page i))) ∨
    res.1 = 0 ∧ ∀ i < n, ¬ bad (translate s.mem r (page i))

/-- What one round of such a loop does to the page `v`. -/
structure PageOp (r : ℕ) (v : PtOff) (op : Option (ℕ × ℕ) → Option (ℕ × ℕ))
    (bad : Option (ℕ × ℕ) → Prop) (st st' : ℕ × Machine) : Prop where
  touch : Touch r {v} st.2 st'.2
  inside : translate st'.2.mem r v = op (translate st.2.mem r v)
  ret : bad (translate st.2.mem r v) ∧ st'.1 = 1 ∨ ¬ bad (translate st.2.mem r v) ∧ st'.1 = st.1

/-- The rule for loops over pages: the rounds before `i` left the page of round `i` alone. -/
theorem ensures_rangeOp {page : ℕ → PtOff} {n : ℕ}
    {body : ℕ → ℕ × Machine → Except Halt (ℕ × Machine)} {allow : Halt → Prop} (hok : TreeOk s r)
    (hinj : ∀ i j, i < n → j < n → page i = page j → i = j)
    (hreg : ∀ i < n, Regular s.mem r (page i))
    (hround : ∀ i st, i < n → TreeOk st.2 r → Regular st.2.mem r (page i) →
      Ensures allow (body i st) (PageOp r (page i) (op i) bad st)) :
    Ensures allow (forRange n body (0, s)) (RangeOp r page n op bad s) := by
  refine Ensures.forRange (fun k st => RangeOp r page k op bad s st)
    ⟨Touch.refl hok, fun i hi => by omega, Or.inr ⟨rfl, fun i hi => by omega⟩⟩ ?_
  intro k st hk hst
  refine (hround k st hk hst.touch.ok (hst.touch.regular (hreg k hk))).mono fun st' h => ?_
  have hsame : translate st.2.mem r (page k) = translate s.mem r (page k) := by
    refine hst.touch.translate _ ?_
    rintro ⟨i, hi, he⟩
    exact absurd (hinj i k (by omega) hk he) (by omega)
  have hret := h.ret
  rw [hsame] at hret
  refine ⟨(hst.touch.mono ?_).trans (h.touch.mono ?_), ?_, ?_⟩
  · rintro v ⟨i, hi, he⟩
    exact ⟨i, by omega, he⟩
  · rintro v rfl
    exact ⟨k, by omega, rfl⟩
  · intro i hi
    by_cases hik : i = k
    · rw [hik, h.inside, hsame]
    · rw [h.touch.translate _ fun he => hik (hinj i k (by omega) hk he)]
      exact hst.inside i (by omega)
  · rcases hret with ⟨hb, h1⟩ | ⟨hb, h1⟩
    · exact Or.inl ⟨h1, k, by omega, hb⟩
    · rw [h1]
      refine hst.ret.imp (fun ⟨h0, i, hi, hbi⟩ => ⟨h0, i, by omega, hbi⟩) ?_
      rintro ⟨h0, hall⟩
      refine ⟨h0, fun i hi => ?_⟩
      by_cases hik : i = k
      · rw [hik]; exact hb
      · exact hall i (by omega)

theorem leafOf_frame {f fl : ℕ} (hf : f < 2 ^ 52) (hfl : fl < 0x1000) (hp : Present fl) :
    leafOf (f * 0x1000 ||| fl) = some (f, fl) := by
  rw [leafOf, if_pos ((present_or hfl).2 hp), entryFrame_or hf hfl, entryFlags_or hfl]

/-- The present bit of the entry says whether the page is mapped. -/
theorem present_entries_iff {v : PtOff} {table : Ptr}
    (ht : pageWalk s.mem r v.tables = some (tableFrame table)) :
    Present (s.entries table v.p1Off) ↔ (translate s.mem r v).isSome := by
  rw [translate_eq, ht]
  simp only [leafOf, entries]
  split_ifs with h <;> simp [h]

section Leaf

variable {t : ℕ} {v : PtOff}

theorem pageChild_eq_some_iff {d e : ℕ} (hd : d ≤ 2) :
    pageChild d e = some t ↔ Present e ∧ (d ≠ 0 → ¬ Huge e) ∧ entryFrame e = t := by
  match d with
  | 0 => simp [pageChild]
  | 1 => simp [pageChild, and_assoc]
  | 2 => simp [pageChild, and_assoc]

theorem vmmEnsureTable_of_present {table : Ptr} {i : Fin 512} (h : Present (s.entries table i)) :
    s.vmmEnsureTable table i = .ok s :=
  if_neg h

theorem vmmGetTable_of_walk (hr : r < 2 ^ 52)
    (h : pageWalk s.mem r v.tables = some t) :
    ∃ pt : PtPtr, s.vmmGetTable v (r * 0x1000) = .ok (pt, s) ∧ tableFrame pt.p1 = t := by
  obtain ⟨t2, h2, hc2⟩ := walk_cons_eq_some.1 h
  obtain ⟨t3, h3, hc3⟩ := walk_cons_eq_some.1 h2
  obtain ⟨t4, h4, hc4⟩ := walk_cons_eq_some.1 h3
  cases h4
  obtain ⟨hp4, -, rfl⟩ := (pageChild_eq_some_iff (by simp)).1 hc4
  obtain ⟨hp3, -, rfl⟩ := (pageChild_eq_some_iff (by simp)).1 hc3
  obtain ⟨hp2, hh, rfl⟩ := (pageChild_eq_some_iff (by simp)).1 hc2
  have hroot : s.entries (getHigherHalf (r * 0x1000)) v.p4Off = s.mem r v.p4Off := by
    rw [entries, tableFrame_getHigherHalf hr]
  have hentry : ∀ table i j, s.entries (s.traversePageTable table i) j =
      s.mem (entryFrame (s.entries table i)) j := by
    intro table i j
    rw [entries, tableFrame_traversePageTable]
  unfold vmmGetTable
  dsimp only
  rw [vmmEnsureTable_of_present (by rwa [hroot]), ok_bind,
    vmmEnsureTable_of_present (by rwa [hentry, hroot]), ok_bind, vmmGetTableP1, getEntry]
  rw [hentry, hentry, hroot, if_pos ⟨not_not.1 (hh (by simp)), hp2⟩]
  refine ⟨_, rfl, ?_⟩
  rw [tableFrame_traversePageTable, hentry, hentry, hroot]

end Leaf

section Rounds

variable {f fl virt : ℕ} {st : ℕ × Machine}

variable (hok : TreeOk st.2 r) (hreg : Regular st.2.mem r (vmmVirtToOffs virt))
include hok hreg

theorem vmmMapPage_spec (hf : f < 2 ^ 52) (hfl : fl < 0x1000) (hp : Present fl) :
    EnsuresFree (vmmMapPage (r * 0x1000) fl (f * 0x1000) virt st)
      (PageOp r (vmmVirtToOffs virt) (fun o => some (o.getD (f, fl))) (fun o => o.isSome) st) := by
  unfold vmmMapPage
  generalize vmmVirtToOffs virt = v at hreg ⊢
  refine (vmmGetTable_spec hok hreg (Set.mem_singleton v)).bind ?_
  rintro ⟨pt, s1⟩ ⟨htouch, htr, ht⟩
  have hpres := present_entries_iff ht
  rw [htr] at hpres
  by_cases h : Present (s1.entries pt.p1 v.p1Off)
  · rw [if_neg h]
    obtain ⟨x, hx⟩ := isSome_iff_exists.1 (hpres.1 h)
    refine ⟨htouch, ?_, Or.inl ⟨hpres.1 h, rfl⟩⟩
    rw [htr, hx]
    rfl
  · rw [if_pos (not_not.1 h)]
    obtain ⟨htouch', htr'⟩ := touch_setLeaf htouch.ok ht (Or.inl ((present_or hfl).2 hp))
    have hnone : translate st.2.mem r v = none := not_isSome_iff_eq_none.1 (mt hpres.2 h)
    refine ⟨htouch.trans htouch', ?_, Or.inr ⟨by simp [hnone], rfl⟩⟩
    rw [htr', leafOf_frame hf hfl hp, hnone]
    rfl

theorem vmmRemapPage_spec (hf : f < 2 ^ 52) (hfl : fl < 0x1000) :
    EnsuresFree (vmmRemapPage (r * 0x1000) fl (f * 0x1000) virt st)
      (PageOp r (vmmVirtToOffs virt) (fun _ => some (f, fl ||| vmmPresent)) (fun _ => False)
        st) := by
  unfold vmmRemapPage
  generalize vmmVirtToOffs virt = v at hreg ⊢
  refine (vmmGetTable_spec hok hreg (Set.mem_singleton v)).bind ?_
  rintro ⟨pt, s1⟩ ⟨htouch, -, ht⟩
  have hfl' : fl ||| vmmPresent < 0x1000 := or_lt_two_pow (n := 12) hfl (by decide)
  have hp : Present (fl ||| vmmPresent) := by
    rw [Present, and_or_distrib_right]
    exact fun h => absurd (or_eq_zero_iff.1 h).2 (by decide)
  obtain ⟨htouch', htr'⟩ := touch_setLeaf htouch.ok ht (Or.inl ((present_or hfl').2 hp))
  exact ⟨htouch.trans htouch', htr'.trans (leafOf_frame hf hfl' hp), Or.inr ⟨id, rfl⟩⟩

theorem vmmUnmapPage_spec :
    EnsuresFree (vmmUnmapPage (r * 0x1000) virt st)
      (PageOp r (vmmVirtToOffs virt) (fun _ => none) (fun o => o = none) st) := by
  unfold vmmUnmapPage
  generalize vmmVirtToOffs virt = v at hreg ⊢
  refine (vmmGetTable_spec hok hreg (Set.mem_singleton v)).bind ?_
  rintro ⟨pt, s1⟩ ⟨htouch, htr, ht⟩
  have hpres := present_entries_iff ht
  rw [htr] at hpres
  by_cases h : Present (s1.entries pt.p1 v.p1Off)
  · rw [if_pos h]
    obtain ⟨htouch', htr'⟩ := touch_setLeaf htouch.ok ht (e := 0) (Or.inr rfl)
    refine ⟨htouch.trans htouch', htr', Or.inr ⟨fun hn => ?_, rfl⟩⟩
    have := hpres.1 h
    rw [hn] at this
    cases this
  · rw [if_neg h]
    have hnone : translate st.2.mem r v = none := not_isSome_iff_eq_none.1 (mt hpres.2 h)
    exact ⟨htouch, (htr v).trans hnone, Or.inl ⟨hnone, rfl⟩⟩

end Rounds

section Loops

variable {phys virt count perms : ℕ}

variable (hok : TreeOk s r) (hreg : ∀ i < count, Regular s.mem r (pageAt virt i))
  (hc : count ≤ 2 ^ 36)
include hok hreg hc

theorem vmmMapPages_spec (hfl : perms < 0x1000) (hp : Present perms) :
    EnsuresFree (s.vmmMapPages phys virt (r * 0x1000) count perms)
      (RangeOp r (pageAt virt) count (fun i o => some (o.getD (frameAt phys i, perms)))
        (fun o => o.isSome) s) := by
  refine ensures_rangeOp hok (fun i j hi hj => pageAt_inj hc hi hj) hreg fun i st hi hst hr => ?_
  rw [← pageAt_masked] at hr
  rw [frameAt_masked, ← pageAt_masked]
  exact vmmMapPage_spec hst hr (frameAt_lt phys i) hfl hp

theorem vmmRemapPages_spec (hfl : perms < 0x1000) :
    EnsuresFree (s.vmmRemapPages phys virt (r * 0x1000) count perms)
      (RangeOp r (pageAt virt) count (fun i _ => some (frameAt phys i, perms ||| vmmPresent))
        (fun _ => False) s) := by
  refine ensures_rangeOp hok (fun i j hi hj => pageAt_inj hc hi hj) hreg fun i st hi hst hr => ?_
  rw [← pageAt_masked] at hr
  rw [frameAt_masked, ← pageAt_masked]
  exact vmmRemapPage_spec hst hr (frameAt_lt phys i) hfl

theorem vmmUnmapPages_spec :
    EnsuresFree (s.vmmUnmapPages virt (r * 0x1000) count)
      (RangeOp r (pageAt virt) count (fun _ _ => none) (fun o => o = none) s) :=
  ensures_rangeOp hok (fun _ _ hi hj => pageAt_inj hc hi hj) hreg fun _ _ _ hst hr =>
    vmmUnmapPage_spec hst hr

end Loops

/-! ### The refinement -/

/-- A tree of distinct used tables, with aligned entries of 2 MiB and no entries of 1 GiB. -/
structure WellFormed (s : Machine) (r : ℕ) : Prop extends TreeOk s r where
  regular : ∀ v, Regular s.mem r v

/-- The pages of the range change by `op`, all other pages stay, and the tree is well formed. -/
structure RefinesRange (r virt count : ℕ) (op : ℕ → Option (ℕ × ℕ) → Option (ℕ × ℕ))
    (s s' : Machine) : Prop where
  inside : ∀ i < count,
    translate s'.mem r (pageAt virt i) = op i (translate s.mem r (pageAt virt i))
  outside : ∀ u, (∀ i < count, u ≠ pageAt virt i) → translate s'.mem r u = translate s.mem r u
  wellFormed : WellFormed s' r

theorem RangeOp.refinesRange {virt count : ℕ} (h : RangeOp r (pageAt virt) count op bad s res)
    (hs : WellFormed s r) :
    RefinesRange r virt count op s res.2 where
  inside := h.inside
  outside u hu := h.touch.translate u fun ⟨i, hi, he⟩ => hu i hi he.symm
  wellFormed := ⟨h.touch.ok, fun v => h.touch.regular (hs.regular v)⟩

theorem RangeOp.ret_eq_one_iff {page : ℕ → PtOff} {n : ℕ} (h : RangeOp r page n op bad s res) :
    res.1 = 1 ↔ ∃ i < n, bad (translate s.mem r (page i)) := by
  rcases h.ret with ⟨h1, hb⟩ | ⟨h0, hb⟩
  · exact ⟨fun _ => hb, fun _ => h1⟩
  · refine ⟨fun h1 => by omega, fun ⟨i, hi, hbi⟩ => absurd hbi (hb i hi)⟩

/-- **The three loops implement the partial map of an address space.**  When memory does not run
out, `vmm_map_pages` adds the pages that were not mapped, `vmm_remap_pages` sets all of them, and
`vmm_unmap_pages` removes all of them; the first and the last return `1` when a page already was, or
was not, mapped. -/
theorem mapPages_refine {phys virt count perms : ℕ} (hs : WellFormed s r) (hc : count ≤ 2 ^ 36)
    (hperms : perms < 0x1000) :
    (Present perms →
      s.vmmMapPages phys virt (r * 0x1000) count perms ≠ .error .noFreeMemory →
      ∃ ret s', s.vmmMapPages phys virt (r * 0x1000) count perms = .ok (ret, s') ∧
        RefinesRange r virt count (fun i o => some (o.getD (frameAt phys i, perms))) s s' ∧
        (ret = 1 ↔ ∃ i < count, (translate s.mem r (pageAt virt i)).isSome)) ∧
    (s.vmmRemapPages phys virt (r * 0x1000) count perms ≠ .error .noFreeMemory →
      ∃ ret s', s.vmmRemapPages phys virt (r * 0x1000) count perms = .ok (ret, s') ∧
        RefinesRange r virt count (fun i _ => some (frameAt phys i, perms ||| vmmPresent)) s s') ∧
    (s.vmmUnmapPages virt (r * 0x1000) count ≠ .error .noFreeMemory →
      ∃ ret s', s.vmmUnmapPages virt (r * 0x1000) count = .ok (ret, s') ∧
        RefinesRange r virt count (fun _ _ => none) s s' ∧
        (ret = 1 ↔ ∃ i < count, translate s.mem r (pageAt virt i) = none)) := by
  have hreg : ∀ i < count, Regular s.mem r (pageAt virt i) := fun i _ => hs.regular _
  refine ⟨fun hp hne => ?_, fun hne => ?_, fun hne => ?_⟩
  · obtain ⟨⟨ret, s'⟩, heq, h⟩ := (vmmMapPages_spec hs.toTreeOk hreg hc hperms hp).exists_ok hne
    exact ⟨ret, s', heq, h.refinesRange hs, h.ret_eq_one_iff⟩
  · obtain ⟨⟨ret, s'⟩, heq, h⟩ := (vmmRemapPages_spec hs.toTreeOk hreg hc hperms).exists_ok hne
    exact ⟨ret, s', heq, h.refinesRange hs⟩
  · obtain ⟨⟨ret, s'⟩, heq, h⟩ := (vmmUnmapPages_spec hs.toTreeOk hreg hc).exists_ok hne
    exact ⟨ret, s', heq, h.refinesRange hs, h.ret_eq_one_iff⟩

/-- Eight pages of memory, two of them used, and all words zero. -/
def blank : Machine where
  mem _ _ := 0
  pmm :=
    { bitmap := fun i => if i = 0 then 0x3 else 0
      bitmapMaxPage := 8
      usedMemory := 0x2000
      availableMemory := 0x6000
      maxPage_le := by decide }

theorem pageWalk_blank {π : List (Fin 512)} {t : ℕ} (h : pageWalk blank.mem 1 π = some t) :
    π = [] ∧ t = 1 := by
  cases π with
  | nil => cases h; exact ⟨rfl, rfl⟩
  | cons i π =>
    obtain ⟨t', -, h'⟩ := walk_cons_eq_some.1 h
    rw [show blank.mem t' i = 0 from rfl, pageChild_eq_none_of_not_present not_present_zero] at h'
    cases h'

theorem wellFormed_blank : WellFormed blank 1 where
  root_lt := by decide
  distinct π π' t h h' := (pageWalk_blank h).1.trans (pageWalk_blank h').1.symm
  used π t h := by
    rw [(pageWalk_blank h).2]
    decide
  regular v := ⟨fun _ _ hp => absurd hp not_present_zero, fun _ _ hp => absurd hp not_present_zero⟩

theorem mapPages_refine_blank :
    (∃ ret s', blank.vmmMapPages 0x9000 0x3000 0x1000 2 7 = .ok (ret, s') ∧
      translate s'.mem 1 (pageAt 0x3000 1) = some (10, 7) ∧ WellFormed s' 1) ∧
    (∃ ret s', blank.vmmRemapPages 0x9000 0x3000 0x1000 2 6 = .ok (ret, s') ∧
      translate s'.mem 1 (pageAt 0x3000 1) = some (10, 7) ∧ WellFormed s' 1) ∧
    (∃ s', blank.vmmUnmapPages 0x3000 0x1000 2 = .ok (1, s') ∧ WellFormed s' 1) := by
  refine ⟨?_, ?_, ?_⟩
  · obtain ⟨ret, s', heq, h, -⟩ :=
      (@mapPages_refine blank 1 0x9000 0x3000 2 7 wellFormed_blank (by decide) (by decide)).1
        (by decide) (ne_error_of_isOk (by decide) _)
    exact ⟨ret, s', heq, h.inside 1 (by decide), h.wellFormed⟩
  · obtain ⟨ret, s', heq, h⟩ :=
      (@mapPages_refine blank 1 0x9000 0x3000 2 6 wellFormed_blank (by decide) (by decide)).2.1
        (ne_error_of_isOk (by decide) _)
    exact ⟨ret, s', heq, h.inside 1 (by decide), h.wellFormed⟩
  · obtain ⟨ret, s', heq, h, hret⟩ :=
      (@mapPages_refine blank 1 0x9000 0x3000 2 6 wellFormed_blank (by decide) (by decide)).2.2
        (ne_error_of_isOk (by decide) _)
    obtain rfl : ret = 1 := hret.2 ⟨0, by decide, by decide⟩
    exact ⟨s', heq, h.wellFormed⟩

end Machine

end DripOS
