import DripOS.Mm.LowerHalf

/-!
# Copying an address space

`vmm_fork` allocates a root table, shares the upper half of the old root with it, and copies every
mapped page of the lower half into a frame of its own.  `ForkInv` is the invariant after the pages
with numbers below `k`: everything that was in use is as it was, and the lower half of the copy
consists of frames that were free.

`vmmFork_spec` needs that the frames mapped by the lower half are in the direct map, and in use or
outside the memory that is handed out (`Forkable`): a mapped frame that is free may be handed out
for the copy.
-/

namespace DripOS

open TableTree PtOff Nat Option

/-- What `vmm_fork` relies on. -/
structure Forkable (s : Machine) (o : ℕ) : Prop where
  tree : TreeOk s o
  small : SmallPages s.mem o
  direct : DirectMapped s.mem o
  /-- The mapped frames can be read, and are not free. -/
  data : ∀ v f fl, v.Low → translate s.mem o v = some (f, fl) →
    Machine.InDirectMap f ∧ (s.pmm.Used f ∨ s.pmm.bitmapMaxPage ≤ f)

/-- The state of `vmm_fork` after the pages below `k`, with the copy rooted in `n`. -/
structure ForkInv (s₀ : Machine) (o n k : ℕ) (s : Machine) : Prop where
  tree : TreeOk s n
  small : SmallPages s.mem n
  /-- What was not free is unchanged. -/
  kept : ∀ f, s₀.pmm.Used f ∨ s₀.pmm.bitmapMaxPage ≤ f → s.mem f = s₀.mem f
  high : ∀ i : Fin 512, 256 ≤ i.val → s.mem n i = s₀.mem o i
  /-- Tables of the upper half are shared. -/
  highTables : ∀ π t, ¬ LowPath π → pageWalk s.mem n π = some t → pageWalk s₀.mem o π = some t
  /-- Tables of the lower half are new. -/
  lowTables : ∀ π t, LowPath π → pageWalk s.mem n π = some t →
    ¬ s₀.pmm.Used t ∧ t < s₀.pmm.bitmapMaxPage
  copied : ∀ v f fl, v.Low → v.vpn < k → translate s₀.mem o v = some (f, fl) →
    ∃ g, translate s.mem n v = some (g, fl) ∧ s.mem g = s₀.mem f
  only : ∀ v x, v.Low → translate s.mem n v = some x → v.vpn < k ∧ (translate s₀.mem o v).isSome
  /-- The frames of the copy are new, and not tables. -/
  data : ∀ v g fl, v.Low → translate s.mem n v = some (g, fl) →
    ¬ s₀.pmm.Used g ∧ g < s₀.pmm.bitmapMaxPage ∧ s.pmm.Used g ∧ ¬ IsPageTable s.mem n g
  inj : ∀ u v g fl fl', u.Low → v.Low → translate s.mem n u = some (g, fl) →
    translate s.mem n v = some (g, fl') → u = v
  /-- Every frame that was handed out is part of the copy. -/
  used : ∀ f, s.pmm.Used f ↔ s₀.pmm.Used f ∨ (∃ π, LowPath π ∧ pageWalk s.mem n π = some f) ∨
    ∃ v fl, v.Low ∧ translate s.mem n v = some (f, fl)
  balanced : Pmm.Balanced s₀.pmm s.pmm

namespace ForkInv

variable {s0 s : Machine} {o n k : ℕ}

theorem used_of_used (h : ForkInv s0 o n k s) {f : ℕ} (hf : s0.pmm.Used f) : s.pmm.Used f :=
  (h.used f).2 (Or.inl hf)

theorem skip (h : ForkInv s0 o n k s) {k' : ℕ} (hle : k ≤ k')
    (hnone : ∀ v : PtOff, v.Low → k ≤ v.vpn → v.vpn < k' → translate s0.mem o v = none) :
    ForkInv s0 o n k' s := by
  refine { h with copied := fun v f fl hv hk hold => ?_, only := fun v x hv hx => ?_ }
  · by_cases hvk : v.vpn < k
    · exact h.copied v f fl hv hvk hold
    · rw [hnone v hv (by omega) hk] at hold
      cases hold
  · exact ⟨(h.only v x hv hx).1.trans_le hle, (h.only v x hv hx).2⟩

/-- The next page is not mapped by the copy yet. -/
theorem translate_next {v : PtOff} (h : ForkInv s0 o n v.vpn s) (hv : v.Low) :
    translate s.mem n v = none := by
  by_contra hsome
  obtain ⟨x, hx⟩ := ne_none_iff_exists'.1 hsome
  exact absurd (h.only v x hv hx).1 (lt_irrefl _)

theorem oldTable (h : ForkInv s0 o n k s) (ho : TreeOk s0 o) {t : ℕ}
    (ht : IsPageTable s0.mem o t) : s.mem t = s0.mem t := by
  obtain ⟨π, hπ⟩ := ht
  exact h.kept t (Or.inl (ho.used π t hπ))

theorem oldWalk (h : ForkInv s0 o n k s) (ho : TreeOk s0 o) (π : List (Fin 512)) :
    pageWalk s.mem o π = pageWalk s0.mem o π :=
  pageWalk_congr (fun _ ht => h.oldTable ho ht) π

end ForkInv

/-! ### One page -/

/-- The state in which `vmm_fork` calls `vmm_map_pages`: frame `g` was allocated and filled. -/
structure Filled (s : Machine) (g : ℕ) (c : Fin 512 → ℕ) (s' : Machine) : Prop extends
    Reserved s g 1 s' where
  page : s'.mem g = c

namespace Filled

variable {s s' : Machine} {g : ℕ} {c : Fin 512 → ℕ}

theorem free (h : Filled s g c s') : ¬ s.pmm.Used g := h.not_used le_rfl (lt_succ_self g)

theorem used_iff (h : Filled s g c s') (f : ℕ) : s'.pmm.Used f ↔ f = g ∨ s.pmm.Used f := by
  rw [h.used]
  refine or_congr_left ⟨fun h => by omega, fun h => by omega⟩

theorem mem_eq (h : Filled s g c s') {f : ℕ} (hf : f ≠ g) : s'.mem f = s.mem f :=
  h.other f fun hb => hf (by omega)

end Filled

section Step

/-- One turn of the loop: page `v`, mapped to frame `f`, is copied into frame `g`, which the copy
maps. -/
structure ForkStep (s₀ : Machine) (o n : ℕ) (v : PtOff) (f fl g : ℕ) (s s₂ s' : Machine) :
    Prop where
  inv : ForkInv s₀ o n v.vpn s
  low : v.Low
  old : translate s₀.mem o v = some (f, fl)
  fill : Filled s g (s₀.mem f) s₂
  touch : Touch n {v} s₂ s'
  new : translate s'.mem n v = some (g, fl)

variable {s0 s s2 s' : Machine} {o n g f fl : ℕ} {v : PtOff}

namespace ForkStep

variable (h : ForkStep s0 o n v f fl g s s2 s') {x t fl' : ℕ} {π : List (Fin 512)} {u : PtOff}

include h

theorem maxPage : s0.pmm.bitmapMaxPage = s.pmm.bitmapMaxPage := h.inv.balanced.1

theorem used₂ (hx : s.pmm.Used x) : s2.pmm.Used x := (h.fill.used_iff x).2 (Or.inr hx)

/-- The new frame was free before the fork. -/
theorem free₀ : ¬ s0.pmm.Used g := fun hu => h.fill.free (h.inv.used_of_used hu)

/-- The tables that are created now are on the path of the page. -/
theorem fresh (hπ : pageWalk s'.mem n π = some t) :
    pageWalk s.mem n π = some t ∨ ¬ s2.pmm.Used t ∧ t < s.pmm.bitmapMaxPage ∧ π <:+ v.path := by
  rcases h.touch.fresh π t hπ with hold | ⟨hfree, hlt, u, hu, hsuf⟩
  · rw [h.fill.walk h.inv.tree] at hold
    exact Or.inl hold
  · rw [Set.mem_singleton_iff.1 hu] at hsuf
    exact Or.inr ⟨hfree, h.fill.alloc.maxPage ▸ hlt, hsuf⟩

/-- A frame that was in use before is not a new table. -/
theorem walk_of_used (hx : s2.pmm.Used x ∨ s.pmm.bitmapMaxPage ≤ x)
    (hπ : pageWalk s'.mem n π = some x) :
    pageWalk s.mem n π = some x := by
  rcases h.fresh hπ with hold | ⟨hfree, hlt, -⟩
  · exact hold
  · exact absurd hx (not_or.2 ⟨hfree, Nat.not_le.2 hlt⟩)

/-- Tables of the upper half are not created. -/
theorem walk_of_high (hhigh : ¬ LowPath π) (hπ : pageWalk s'.mem n π = some t) :
    pageWalk s.mem n π = some t := by
  rcases h.fresh hπ with hold | ⟨-, -, hsuf⟩
  · exact hold
  · exact absurd ((lowPath_path.2 h.low).of_suffix hsuf) hhigh

theorem translate_of_ne (hu : u ≠ v) : translate s'.mem n u = translate s.mem n u := by
  rw [h.touch.translate u hu, h.fill.translate h.inv.tree]

theorem ne_of_mapped {x : ℕ × ℕ} (hx : translate s.mem n u = some x) : u ≠ v := by
  rintro rfl
  rw [h.inv.translate_next h.low] at hx
  cases hx

theorem notTable : ¬ IsPageTable s'.mem n g := by
  rintro ⟨π, hπ⟩
  have hold := h.walk_of_used (Or.inl ((h.fill.used_iff g).2 (Or.inl rfl))) hπ
  exact h.fill.free (h.inv.tree.used π g hold)

theorem page : s'.mem g = s0.mem f := (h.touch.frame g h.notTable).trans h.fill.page

/-- The frames that were copied before stay what they are. -/
theorem data_kept (hu : u.Low) (hx : translate s.mem n u = some (x, fl')) :
    ¬ IsPageTable s'.mem n x ∧ s'.mem x = s.mem x ∧ x ≠ g := by
  obtain ⟨-, -, hused, hnot⟩ := h.inv.data u x fl' hu hx
  have hnot' : ¬ IsPageTable s'.mem n x :=
    fun ⟨π, hπ⟩ => hnot ⟨π, h.walk_of_used (Or.inl (h.used₂ hused)) hπ⟩
  have hne : x ≠ g := fun he => h.fill.free (he ▸ hused)
  exact ⟨hnot', (h.touch.frame x hnot').trans (h.fill.mem_eq hne), hne⟩

/-- A page of the copy is the new one, or was mapped before. -/
theorem mapped_cases (hx : translate s'.mem n u = some (x, fl')) :
    u = v ∧ x = g ∧ fl' = fl ∨ u ≠ v ∧ translate s.mem n u = some (x, fl') := by
  by_cases huv : u = v
  · rw [huv, h.new] at hx
    cases hx
    exact Or.inl ⟨huv, rfl, rfl⟩
  · exact Or.inr ⟨huv, (h.translate_of_ne huv).symm.trans hx⟩

theorem small : SmallPages s'.mem n := by
  intro π t i hne hlow hlen hπ hp hh
  obtain ⟨hold, hentry⟩ := h.touch.huge π t i hlen hπ hp hh
  rw [hentry] at hp hh
  exact h.fill.small h.inv.tree h.inv.small π t i hne hlow hlen hold hp hh

theorem kept (x : ℕ) (hx : s0.pmm.Used x ∨ s0.pmm.bitmapMaxPage ≤ x) : s'.mem x = s0.mem x := by
  have hmax := h.maxPage
  have hne : x ≠ g := by
    rintro rfl
    exact hx.elim h.free₀ fun hge => absurd (h.fill.lt_max (lt_succ_self _)) (by omega)
  have hx2 : s2.pmm.Used x ∨ s.pmm.bitmapMaxPage ≤ x :=
    hx.imp (fun hu => h.used₂ (h.inv.used_of_used hu)) fun hge => hmax ▸ hge
  rw [← h.inv.kept x hx, ← h.fill.mem_eq hne]
  by_cases hxt : IsPageTable s'.mem n x
  · -- the frame is a table of the upper half, and the page is in the lower half
    obtain ⟨π, hπ⟩ := hxt
    have hπs := h.walk_of_used hx2 hπ
    have hhigh : ¬ LowPath π := by
      intro hlow
      obtain ⟨hfree, hlt⟩ := h.inv.lowTables π x hlow hπs
      exact hx.elim hfree fun hge => by omega
    funext i
    refine h.touch.entry π x i ((h.fill.walk h.inv.tree π).trans hπs) fun u hu => ?_
    rw [Set.mem_singleton_iff.1 hu]
    exact not_suffix_path hhigh h.low i
  · exact h.touch.frame x hxt

theorem high (i : Fin 512) (hi : 256 ≤ i.val) : s'.mem n i = s0.mem o i := by
  have hne : n ≠ g := fun he => h.fill.free (he ▸ h.inv.tree.used [] n rfl)
  rw [← h.inv.high i hi, ← h.fill.mem_eq hne]
  refine h.touch.entry [] n i rfl fun u hu hsuf => ?_
  rw [Set.mem_singleton_iff.1 hu] at hsuf
  have hlt := lowPath_path.2 h.low i hsuf
  omega

theorem lowTables (π : List (Fin 512)) (t : ℕ) (hlow : LowPath π)
    (hπ : pageWalk s'.mem n π = some t) : ¬ s0.pmm.Used t ∧ t < s0.pmm.bitmapMaxPage := by
  rcases h.fresh hπ with hold | ⟨hfree, hlt, -⟩
  · exact h.inv.lowTables π t hlow hold
  · exact ⟨fun hu => hfree (h.used₂ (h.inv.used_of_used hu)), h.maxPage ▸ hlt⟩

theorem copied (u : PtOff) (f' fl' : ℕ) (hu : u.Low) (hk : u.vpn < v.vpn + 1)
    (hf' : translate s0.mem o u = some (f', fl')) :
    ∃ x, translate s'.mem n u = some (x, fl') ∧ s'.mem x = s0.mem f' := by
  by_cases huv : u = v
  · rw [huv, h.old] at hf'
    cases hf'
    exact ⟨g, huv ▸ h.new, h.page⟩
  · have hne : u.vpn ≠ v.vpn := fun he => huv (vpn_inj he)
    obtain ⟨x, hx, hmem⟩ := h.inv.copied u f' fl' hu (by omega) hf'
    exact ⟨x, (h.translate_of_ne huv).trans hx, (h.data_kept hu hx).2.1.trans hmem⟩

theorem only (u : PtOff) (x : ℕ × ℕ) (hu : u.Low) (hx : translate s'.mem n u = some x) :
    u.vpn < v.vpn + 1 ∧ (translate s0.mem o u).isSome := by
  rcases h.mapped_cases hx with ⟨rfl, -⟩ | ⟨-, hold⟩
  · exact ⟨lt_succ_self _, by rw [h.old]; rfl⟩
  · obtain ⟨hlt, hsome⟩ := h.inv.only u x hu hold
    exact ⟨hlt.trans (lt_succ_self _), hsome⟩

theorem data (u : PtOff) (x fl' : ℕ) (hu : u.Low) (hx : translate s'.mem n u = some (x, fl')) :
    ¬ s0.pmm.Used x ∧ x < s0.pmm.bitmapMaxPage ∧ s'.pmm.Used x ∧ ¬ IsPageTable s'.mem n x := by
  rcases h.mapped_cases hx with ⟨-, rfl, -⟩ | ⟨-, hold⟩
  · exact ⟨h.free₀, h.maxPage ▸ h.fill.lt_max (lt_succ_self x),
      h.touch.used_of_used ((h.fill.used_iff x).2 (Or.inl rfl)), h.notTable⟩
  · obtain ⟨hfree, hlt, hused, -⟩ := h.inv.data u x fl' hu hold
    exact ⟨hfree, hlt, h.touch.used_of_used (h.used₂ hused), (h.data_kept hu hold).1⟩

theorem inj (u w : PtOff) (x fl1 fl2 : ℕ) (hu : u.Low) (hw : w.Low)
    (hx : translate s'.mem n u = some (x, fl1)) (hy : translate s'.mem n w = some (x, fl2)) :
    u = w := by
  rcases h.mapped_cases hx with ⟨hu', hg, -⟩ | ⟨-, hx'⟩
  · rcases h.mapped_cases hy with ⟨hw', -⟩ | ⟨-, hy'⟩
    · rw [hu', hw']
    · exact absurd hg (h.data_kept hw hy').2.2
  · rcases h.mapped_cases hy with ⟨-, hg, -⟩ | ⟨-, hy'⟩
    · exact absurd hg (h.data_kept hu hx').2.2
    · exact h.inv.inj u w x fl1 fl2 hu hw hx' hy'

theorem used (ho : TreeOk s0 o) (x : ℕ) : s'.pmm.Used x ↔ s0.pmm.Used x ∨
    (∃ π, LowPath π ∧ pageWalk s'.mem n π = some x) ∨
      ∃ u fl', u.Low ∧ translate s'.mem n u = some (x, fl') := by
  rw [h.touch.used, h.fill.used_iff]
  constructor
  · rintro ((rfl | hx) | ⟨π, hπ⟩)
    · exact Or.inr (Or.inr ⟨v, fl, h.low, h.new⟩)
    · rcases (h.inv.used x).1 hx with hx0 | ⟨π, hlow, hπ⟩ | ⟨u, fl', hu, hx⟩
      · exact Or.inl hx0
      · have hπ2 := (h.fill.walk h.inv.tree π).trans hπ
        exact Or.inr (Or.inl ⟨π, hlow, h.touch.walk π x hπ2⟩)
      · have hu' := (h.translate_of_ne (h.ne_of_mapped hx)).trans hx
        exact Or.inr (Or.inr ⟨u, fl', hu, hu'⟩)
    · by_cases hlow : LowPath π
      · exact Or.inr (Or.inl ⟨π, hlow, hπ⟩)
      · have hold := h.inv.highTables π x hlow (h.walk_of_high hlow hπ)
        exact Or.inl (ho.used π x hold)
  · rintro (hx | ⟨π, -, hπ⟩ | ⟨u, fl', hu, hx⟩)
    · exact Or.inl (Or.inr (h.inv.used_of_used hx))
    · exact Or.inr ⟨π, hπ⟩
    · rcases h.mapped_cases hx with ⟨-, rfl, -⟩ | ⟨-, hold⟩
      · exact Or.inl (Or.inl rfl)
      · exact Or.inl (Or.inr (h.inv.data u x fl' hu hold).2.2.1)

/-- **Copying one page keeps the invariant.** -/
theorem forkInv (ho : TreeOk s0 o) : ForkInv s0 o n (v.vpn + 1) s' where
  tree := h.touch.ok
  small := h.small
  kept := h.kept
  high := h.high
  highTables π t hhigh hπ := h.inv.highTables π t hhigh (h.walk_of_high hhigh hπ)
  lowTables := h.lowTables
  copied := h.copied
  only := h.only
  data := h.data
  inj := h.inj
  used := h.used ho
  balanced := (h.inv.balanced.trans h.fill.alloc.balanced).trans h.touch.balanced

end ForkStep

end Step

/-! ### The root of the copy -/

section Root

variable {s0 s : Machine} {o n : ℕ}

/-- What `vmm_fork_higher_half` does: a new root that shares the upper half. -/
structure HigherHalf (s₀ : Machine) (o n : ℕ) (s : Machine) : Prop where
  alloc : Pmm.Allocated s₀.pmm 1 n s.pmm
  other : ∀ f, f ≠ n → s.mem f = s₀.mem f
  high : ∀ i : Fin 512, 256 ≤ i.val → s.mem n i = s₀.mem o i
  low : ∀ i : Fin 512, i.val < 256 → s.mem n i = 0

namespace HigherHalf

variable (h : HigherHalf s0 o n s)
include h

theorem not_used : ¬ s0.pmm.Used n := h.alloc.lowest.1.2 n le_rfl (lt_succ_self n)

theorem lt_max : n < s0.pmm.bitmapMaxPage := by
  have := h.alloc.lowest.1.1
  omega

theorem used (f : ℕ) : s.pmm.Used f ↔ f = n ∨ s0.pmm.Used f := by
  rw [h.alloc.used]
  refine or_congr_left ⟨fun h => by omega, fun h => by omega⟩

variable {π : List (Fin 512)}

theorem oldTable (ho : TreeOk s0 o) {t : ℕ} (ht : pageWalk s0.mem o π = some t) :
    s.mem t = s0.mem t := by
  refine h.other t ?_
  rintro rfl
  exact h.not_used (ho.used π t ht)

theorem walk_low (hlow : LowPath π) (hne : π ≠ []) : pageWalk s.mem n π = none := by
  obtain ⟨w, hw⟩ := exists_first hne
  by_contra hsome
  obtain ⟨t, ht⟩ := ne_none_iff_exists'.1 hsome
  obtain ⟨t', ht'⟩ := exists_walk_of_suffix hw ht
  rw [walk_cons_of_some (walk_nil), h.low w (hlow w hw),
    pageChild_eq_none_of_not_present not_present_zero] at ht'
  cases ht'

theorem walk_high (ho : TreeOk s0 o) (hhigh : ¬ LowPath π) :
    pageWalk s.mem n π = pageWalk s0.mem o π := by
  obtain ⟨hne, hfirst⟩ := first_of_not_lowPath hhigh
  refine walk_reroot (P := fun j => 256 ≤ j.val) (fun i hi => by rw [h.high i hi]) ?_ hne hfirst
  intro π t i _ _ ht
  rw [h.oldTable ho ht]

theorem of_walk_low {t : ℕ} (hlow : LowPath π) (ht : pageWalk s.mem n π = some t) :
    π = [] ∧ t = n := by
  by_cases hne : π = []
  · subst hne
    cases ht
    exact ⟨rfl, rfl⟩
  · rw [h.walk_low hlow hne] at ht
    cases ht

/-- The tables of a new root are the root and the tables of the old upper half. -/
theorem walk_cases (ho : TreeOk s0 o) {t : ℕ} (ht : pageWalk s.mem n π = some t) :
    π = [] ∧ t = n ∨ ¬ LowPath π ∧ pageWalk s0.mem o π = some t := by
  by_cases hlow : LowPath π
  · exact Or.inl (h.of_walk_low hlow ht)
  · exact Or.inr ⟨hlow, h.walk_high ho hlow ▸ ht⟩

theorem translate_low {v : PtOff} (hv : v.Low) : translate s.mem n v = none :=
  translate_eq_none (i := v.p4Off) (π := []) (t := n)
    (by simp [path, List.suffix_cons_iff]) rfl (by rw [h.low _ hv]; exact not_present_zero)

theorem tree (ho : TreeOk s0 o) : TreeOk s n := by
  refine ⟨h.alloc.lowest.lt_two_pow, ?_, ?_⟩
  · intro π π' t ht ht'
    rcases h.walk_cases ho ht with ⟨rfl, rfl⟩ | ⟨-, h1⟩ <;>
      rcases h.walk_cases ho ht' with ⟨rfl, he⟩ | ⟨-, h2⟩
    · rfl
    · exact absurd (ho.used _ _ h2) h.not_used
    · exact absurd (ho.used _ _ h1) (he ▸ h.not_used)
    · exact ho.distinct π π' t h1 h2
  · intro π t ht
    rw [h.used]
    exact (h.walk_cases ho ht).imp And.right fun h => ho.used π t h.2

/-- The invariant holds before the first page. -/
theorem forkInv (ho : TreeOk s0 o) : ForkInv s0 o n 0 s where
  tree := h.tree ho
  small π t i hne hlow _ ht := by
    rw [h.walk_low hlow hne] at ht
    cases ht
  kept f hf := by
    refine h.other f ?_
    rintro rfl
    exact hf.elim h.not_used fun hge => absurd h.lt_max (by omega)
  high := h.high
  highTables π t hhigh ht := h.walk_high ho hhigh ▸ ht
  lowTables π t hlow ht := by
    obtain ⟨-, rfl⟩ := h.of_walk_low hlow ht
    exact ⟨h.not_used, h.lt_max⟩
  copied v f fl _ hk := absurd hk (Nat.not_lt_zero _)
  only v x hv hx := by rw [h.translate_low hv] at hx; cases hx
  data v g fl hv hx := by rw [h.translate_low hv] at hx; cases hx
  inj u v g fl fl' hu _ hx := by rw [h.translate_low hu] at hx; cases hx
  used f := by
    rw [h.used]
    constructor
    · rintro (rfl | hf)
      · exact Or.inr (Or.inl ⟨[], lowPath_nil, rfl⟩)
      · exact Or.inl hf
    · rintro (hf | ⟨π, hlow, hπ⟩ | ⟨v, fl, hv, hx⟩)
      · exact Or.inr hf
      · obtain ⟨-, rfl⟩ := h.of_walk_low hlow hπ
        exact Or.inl rfl
      · rw [h.translate_low hv] at hx
        cases hx
  balanced := h.alloc.balanced

end HigherHalf

end Root

namespace Machine

variable {s0 s : Machine} {o g n : ℕ} {v : PtOff}

theorem vmmForkHigherHalf_spec (ho : TreeOk s0 o) :
    EnsuresFree (s0.vmmForkHigherHalf (o * 0x1000)) fun r =>
      ∃ n, r.1 = n * 0x1000 ∧ HigherHalf s0 o n r.2 := by
  refine pmmAlloc_page.bind ?_
  rintro ⟨-, s1⟩ ⟨n, rfl, hmem, ha⟩
  dsimp only at hmem ha
  refine ⟨n, rfl, ?_⟩
  have hnew := tableFrame_getHigherHalf ha.lowest.lt_two_pow
  have hold := tableFrame_getHigherHalf ho.root_lt
  have hne : o ≠ n := by
    rintro rfl
    exact ha.lowest.1.2 o le_rfl (lt_succ_self o) (ho.used [] o rfl)
  refine ⟨ha, fun f hf => ?_, fun i hi => ?_, fun i hi => ?_⟩
  · simp only [mem_writePage, clearPage, hnew, if_neg hf, hmem]
  · simp only [mem_writePage, clearPage, entries, hnew, hold, if_true, if_neg hne, hmem, if_pos hi]
  · simp only [mem_writePage, clearPage, entries, hnew, if_true, if_neg (not_le.2 hi)]

theorem pageAt_vmmOffsToVirt (hv : v.Low) : pageAt (vmmOffsToVirt v) 0 = v := by
  apply vpn_inj
  rw [vpn_pageAt, vmmOffsToVirt_eq]
  have hlt := low_iff.1 hv
  omega

theorem frameAt_zero (hg : g < 2 ^ 52) : frameAt (g * 0x1000) 0 = g := by
  unfold frameAt
  omega

theorem entryFlags_lt (e : ℕ) : entryFlags e < 0x1000 := by
  rw [entryFlags_eq]
  exact mod_lt _ (by decide)

theorem present_entryFlags {e : ℕ} : Present (entryFlags e) ↔ Present e := by
  rw [present_iff, present_iff, entryFlags_eq]
  omega

theorem memcpyPage_filled {s s1 : Machine} {f : ℕ} (ha : Pmm.Allocated s.pmm 1 g s1.pmm)
    (hmem : s1.mem = s.mem) (hf : InDirectMap f) :
    ∃ s2, s1.memcpyPage (f * 0x1000) (g * 0x1000) = .ok s2 ∧ Filled s g (s.mem f) s2 := by
  have hg := tableFrame_getHigherHalf ha.lowest.lt_two_pow
  refine ⟨s1.writePage (getHigherHalf (g * 0x1000)) (s.mem f), ?_, ⟨ha, fun x hx => ?_⟩, ?_⟩
  · rw [memcpyPage, Nat.mul_div_cancel _ (by decide), if_pos ⟨mul_mod_left _ _, hf⟩, hmem]
  · rw [mem_writePage, hg, if_neg (by omega), hmem]
  · rw [mem_writePage, hg, if_pos rfl]

theorem vmmForkPage_spec {t : ℕ} {tableX : Ptr} (hs0 : Forkable s0 o) (h : ForkInv s0 o n v.vpn s)
    (hv : v.Low) (hw : pageWalk s0.mem o v.tables = some t)
    (htab : tableFrame tableX = t) (hp : Present (s0.mem t v.p1Off)) :
    EnsuresFree (s.vmmForkPage (o * 0x1000) (n * 0x1000) tableX v)
      (ForkInv s0 o n (v.vpn + 1)) := by
  obtain ⟨ho, hsmall, hd, hdata⟩ := hs0
  have hold : translate s0.mem o v =
      some (entryFrame (s0.mem t v.p1Off), entryFlags (s0.mem t v.p1Off)) :=
    (hsmall.translate_eq_some hv).2 ⟨t, hw, hp, rfl⟩
  have htmem : s.mem t = s0.mem t := h.oldTable ho ⟨_, hw⟩
  -- the frame of the page is found in the old tables
  have hphys : s.virtToPhys (vmmOffsToVirt v) (o * 0x1000) =
      entryFrame (s0.mem t v.p1Off) * 0x1000 := by
    have hd' : DirectMapped s.mem o := fun π t hne hlow ht => hd π t hne hlow (h.oldWalk ho π ▸ ht)
    rw [virtToPhys_of_walk ho.root_lt hd' hv (vmmVirtToOffs_vmmOffsToVirt v)
      ((h.oldWalk ho _).trans hw) (htmem ▸ hp), htmem, vmmOffsToVirt_eq]
    omega
  unfold vmmForkPage
  dsimp only
  rw [hphys]
  refine pmmAlloc_page.bind ?_
  rintro ⟨-, s1⟩ ⟨g, rfl, hmem, ha⟩
  -- the page is copied
  obtain ⟨hmap, hused⟩ := hdata v _ _ hv hold
  obtain ⟨s2, hcopy, hfill⟩ := memcpyPage_filled ha hmem hmap
  rw [h.kept _ hused] at hfill
  rw [hcopy, ok_bind]
  -- the table that is being read is not the new page
  have hflags : s2.entries tableX v.p1Off &&& 0xfff = entryFlags (s0.mem t v.p1Off) := by
    have htg : t ≠ g := fun he => hfill.free (he ▸ h.used_of_used (ho.used _ _ hw))
    rw [entries, htab, hfill.mem_eq htg, htmem]
    rfl
  have hpage := pageAt_vmmOffsToVirt hv
  have hframe := frameAt_zero ha.lowest.lt_two_pow
  rw [hflags]
  refine (vmmMapPages_spec (hfill.tree h.tree) (fun i hi => ?_) (by decide) (entryFlags_lt _)
    (present_entryFlags.2 hp)).bind fun res hres => ?_
  · obtain rfl : i = 0 := by omega
    rw [hpage]
    exact (hfill.small h.tree h.small).regular hv
  · have hin := hres.inside 0 (by decide)
    rw [hpage, hfill.translate h.tree, h.translate_next hv, hframe] at hin
    refine ForkStep.forkInv ⟨h, hv, hold, hfill, hres.touch.mono ?_, hin⟩ ho
    rintro u ⟨i, hi, rfl⟩
    obtain rfl : i = 0 := by omega
    exact hpage

/-- **`vmm_fork` keeps its invariant through all four loops.** -/
theorem vmmFork_spec (hs0 : Forkable s0 o) :
    EnsuresFree (s0.vmmFork (o * 0x1000)) fun r =>
      ∃ n, r.1 = n * 0x1000 ∧ ForkInv s0 o n (2 ^ 35) r.2 := by
  refine (vmmForkHigherHalf_spec hs0.tree).bind ?_
  rintro ⟨-, s1⟩ ⟨n, rfl, hroot⟩
  have hloop : PageLoop s0.mem o (ForkInv s0 o n) :=
    { small := hs0.small
      kept := fun k s h π t _ ht => h.oldTable hs0.tree ⟨π, ht⟩
      skip := fun k k' s hle hnone h => h.skip hle hnone }
  refine (ensures_lowPages hs0.tree.root_lt hloop
    (fun tableX v s => s.vmmForkPage (o * 0x1000) (n * 0x1000) tableX v)
    (hroot.forkInv hs0.tree) ?_).bind ?_
  · exact fun v t tableX s hv hw htab hp h => vmmForkPage_spec hs0 h hv hw htab hp
  · exact fun s' h => ⟨n, rfl, h⟩

/-! ### What the copy looks like -/

/-- The address space rooted in `n` is a copy of the one rooted in `o` in the state `s₀`. -/
structure IsCopy (s₀ : Machine) (o n : ℕ) (s : Machine) : Prop where
  mapped_iff : ∀ v, v.Low → ((translate s.mem n v).isSome ↔ (translate s₀.mem o v).isSome)
  /-- A page is copied, with its flags, to a frame that was free and has no other use. -/
  page : ∀ v f fl, v.Low → translate s₀.mem o v = some (f, fl) →
    ∃ g, translate s.mem n v = some (g, fl) ∧ s.mem g = s₀.mem f ∧
      (¬ s₀.pmm.Used g ∧ g < s₀.pmm.bitmapMaxPage) ∧
      (∀ u g' fl', u.Low → u ≠ v → translate s.mem n u = some (g', fl') → g' ≠ g) ∧
      (∀ u g' fl', u.Low → translate s.mem o u = some (g', fl') → g' ≠ g) ∧
      ¬ IsPageTable s.mem n g ∧ ¬ IsPageTable s.mem o g
  high : ∀ i : Fin 512, 256 ≤ i.val → s.mem n i = s₀.mem o i
  oldTables : ∀ t, IsPageTable s₀.mem o t → s.mem t = s₀.mem t
  oldPages : ∀ v f fl, v.Low → translate s₀.mem o v = some (f, fl) → s.mem f = s₀.mem f

theorem isCopy_of_forkInv (h : ForkInv s0 o n (2 ^ 35) s) (hs0 : Forkable s0 o) :
    IsCopy s0 o n s := by
  have ho := hs0.tree
  have hold : ∀ v, translate s.mem o v = translate s0.mem o v :=
    translate_congr fun _ ht => h.oldTable ho ht
  refine ⟨fun v hv => ?_, fun v f fl hv hf => ?_, h.high, fun t ht => h.oldTable ho ht,
    fun v f fl hv hf => h.kept f (hs0.data v f fl hv hf).2⟩
  · constructor
    · intro hs
      obtain ⟨x, hx⟩ := isSome_iff_exists.1 hs
      exact (h.only v x hv hx).2
    · intro hs
      obtain ⟨⟨f, fl⟩, hf⟩ := isSome_iff_exists.1 hs
      obtain ⟨g, hg, -⟩ := h.copied v f fl hv (low_iff.1 hv) hf
      rw [hg]
      rfl
  · obtain ⟨g, hg, hm⟩ := h.copied v f fl hv (low_iff.1 hv) hf
    obtain ⟨hfree, hlt, -, hnt⟩ := h.data v g fl hv hg
    refine ⟨g, hg, hm, ⟨hfree, hlt⟩, ?_, ?_, hnt, ?_⟩
    · rintro u g' fl' hu huv hx rfl
      exact huv (h.inj u v g' fl' fl hu hv hx hg)
    · rintro u g' fl' hu hx rfl
      rw [hold] at hx
      exact (hs0.data u g' fl' hu hx).2.elim hfree fun hge => by omega
    · rintro ⟨π, hπ⟩
      exact hfree (ho.used π g (h.oldWalk ho π ▸ hπ))

/-- **`vmm_fork` copies the address space**, when memory does not run out. -/
theorem vmmFork_isCopy (hs : Forkable s o)
    (hne : s.vmmFork (o * 0x1000) ≠ .error .noFreeMemory) :
    ∃ n s', s.vmmFork (o * 0x1000) = .ok (n * 0x1000, s') ∧ IsCopy s o n s' := by
  obtain ⟨⟨_, s'⟩, heq, n, rfl, h⟩ := (vmmFork_spec hs).exists_ok hne
  exact ⟨n, s', heq, isCopy_of_forkInv h hs⟩

/-! ### Examples

One page of user memory below the last entries of the lower half, and frames 0 to 511 mapped by
the kernel with an entry of 2 MiB. -/

/-- Frames 1 to 4 are the tables of the page in frame 7; frames 5 and 6 are tables of the kernel.
`used` has the used frames among the first eight. -/
def onePage (used : BitVec 8) : Machine where
  mem f i :=
    match f, i.val with
    | 1, 255 => tableEntry 2
    | 1, 256 => tableEntry 5
    | 2, 511 => tableEntry 3
    | 3, 511 => tableEntry 4
    | 4, 511 => tableEntry 7
    | 5, 0 => tableEntry 6
    | 6, 0 => 0x83
    | 7, _ => 42
    | _, _ => 0
  pmm := .ofBitmap 16 8 fun i => if i = 0 then used else 0

/-- The tables of `onePage`. -/
def onePageTables : List (List (Fin 512) × ℕ) :=
  [([], 1), ([255], 2), ([511, 255], 3), ([511, 511, 255], 4), ([256], 5), ([0, 256], 6)]

theorem describes_onePage (used : BitVec 8) :
    Describes pageChild (onePage used).mem 1 onePageTables := by
  have h : Describes pageChild (onePage 0).mem 1 onePageTables :=
    describes_of_check (by decide +kernel)
  exact h

theorem treeOk_onePage {used : BitVec 8} (h : used &&& 0x7e = 0x7e) : TreeOk (onePage used) 1 := by
  refine TreeOk.of_describes (by decide) (describes_onePage used) ?_
  revert used
  decide +kernel

theorem smallPages_onePage (used : BitVec 8) : SmallPages (onePage used).mem 1 := by
  refine SmallPages.of_describes (describes_onePage used) ?_
  have h : ∀ x ∈ onePageTables, x.1 ≠ [] → LowPath x.1 → x.1.length ≤ 2 →
      ∀ i, Present ((onePage 0).mem x.2 i) → ¬ Huge ((onePage 0).mem x.2 i) := by decide +kernel
  exact h

/-- With frame 7 in use, the page can be copied. -/
theorem forkable_onePage : Forkable (onePage 0xff) 1 where
  tree := treeOk_onePage (by decide)
  small := smallPages_onePage 0xff
  direct π t hne hlow ht := by
    have h : ∀ x ∈ onePageTables, Followed x.2 := by decide
    exact h _ ((describes_onePage 0xff).mem ht)
  data v f fl hv hf := by
    obtain ⟨t, ht, hp, he⟩ := ((smallPages_onePage 0xff).translate_eq_some hv).1 hf
    have h : ∀ x ∈ onePageTables, x.1.length = 3 → ∀ i, Present ((onePage 0xff).mem x.2 i) →
        InDirectMap (entryFrame ((onePage 0xff).mem x.2 i)) ∧
          (onePage 0xff).pmm.Used (entryFrame ((onePage 0xff).mem x.2 i)) := by decide +kernel
    cases he
    exact (h _ ((describes_onePage 0xff).mem ht) rfl _ hp).imp_right Or.inl

theorem vmmFork_isCopy_onePage :
    ∃ n s', (onePage 0xff).vmmFork 0x1000 = .ok (n * 0x1000, s') ∧ IsCopy (onePage 0xff) 1 n s' :=
  @vmmFork_isCopy (onePage 0xff) 1 forkable_onePage (ne_error_of_isOk (by decide +kernel) _)

/-- A page of user memory whose second table is in frame 0. -/
def tableInFrameZero : Machine where
  mem f i :=
    match f, i.val with
    | 1, 0 => tableEntry 0
    | 0, 0 => tableEntry 2
    | 2, 0 => tableEntry 3
    | 3, 0 => tableEntry 4
    | _, _ => 0
  pmm := .ofBitmap 16 5 fun i => if i = 0 then 0x1f else 0

theorem describes_tableInFrameZero : Describes pageChild tableInFrameZero.mem 1
    [([], 1), ([0], 0), ([0, 0], 2), ([0, 0, 0], 3)] :=
  describes_of_check (by decide +kernel)

theorem vmmFork_tableInFrameZero : TreeOk tableInFrameZero 1 ∧
    SmallPages tableInFrameZero.mem 1 ∧ tableInFrameZero.vmmFork 0x1000 = .error .fault :=
  ⟨TreeOk.of_describes (by decide) describes_tableInFrameZero (by decide +kernel),
    SmallPages.of_describes describes_tableInFrameZero (by decide +kernel),
    eq_error_of_stopReason (by decide +kernel)⟩

/-- **Distinct, used tables and small pages are not enough for `vmm_fork`.**  With a table in frame
0 the copy faults, since `virt_to_phys` takes it for a failed walk.  With a mapped frame that is
free the new root overwrites the old page. -/
theorem vmmFork_not_isCopy :
    (TreeOk tableInFrameZero 1 ∧ SmallPages tableInFrameZero.mem 1 ∧
      tableInFrameZero.vmmFork 0x1000 = .error .fault) ∧
    (TreeOk (onePage 0x7f) 1 ∧ SmallPages (onePage 0x7f).mem 1 ∧
      translate (onePage 0x7f).mem 1 ⟨255, 511, 511, 511⟩ = some (7, 7) ∧
      ∃ s', (onePage 0x7f).vmmFork 0x1000 = .ok (7 * 0x1000, s') ∧
        s'.mem 7 0 ≠ (onePage 0x7f).mem 7 0 ∧
        translate s'.mem 7 ⟨255, 511, 511, 511⟩ = some (8, 7) ∧
        translate s'.mem 7 ⟨256, 0, 0, 8⟩ = some (8, 0x83)) := by
  refine ⟨vmmFork_tableInFrameZero, treeOk_onePage (by decide), smallPages_onePage _,
    by decide +kernel, ?_⟩
  have h : ((onePage 0x7f).vmmFork 0x1000).toOption.map (fun r =>
      (r.1, r.2.mem 7 0, translate r.2.mem 7 ⟨255, 511, 511, 511⟩,
        translate r.2.mem 7 ⟨256, 0, 0, 8⟩)) =
      some (7 * 0x1000, 0, some (8, 7), some (8, 0x83)) := by decide +kernel
  obtain ⟨⟨a, s'⟩, heq, hres⟩ := exists_ok_of_map h
  simp only [Prod.mk.injEq] at hres
  obtain ⟨rfl, h1, h2, h3⟩ := hres
  exact ⟨s', heq, by rw [h1]; decide, h2, h3⟩

end Machine

end DripOS
