import DripOS.Mm.Fork

/-!
# Tearing down an address space

`vmm_deconstruct_address_space` frees every mapped page of the lower half, every table after what is
below it, and the root last.  `frames` is the list of the frames in this order
(`vmmDeconstructAddressSpace_eq`).

The frames of pages are treated like tables (`frameChild`), so that the list is the post-order of
one tree.  It has no duplicates when no frame is mapped twice and no table is mapped
(`nodup_frames`).  This is the case for the result of `vmm_fork`, so that forking and tearing down
the copy restores the physical memory manager (`vmmFork_deconstruct_restores`).
-/

namespace DripOS

open TableTree List PtOff

/-- The frame below an entry: a table, or at the last level a page. -/
def frameChild (d e : ℕ) : Option ℕ := if d ≤ 3 ∧ Present e then some (entryFrame e) else none

/-- The number of entries the traversal looks at, by depth. -/
def width (d : ℕ) : ℕ := if d = 0 then 256 else 512

/-- The indices the traversal looks at, by depth. -/
def indices (d : ℕ) : List (Fin 512) := (List.range (width d)).map (Fin.ofNat 512)

/-- The frames of the lower half, in the order in which they are freed. -/
def frames (mem : ℕ → Fin 512 → ℕ) (r : ℕ) : List ℕ := postorder frameChild mem indices 4 0 r

/-! ### The frames of the lower half -/

theorem mem_indices {d : ℕ} {i : Fin 512} : i ∈ indices d ↔ d = 0 → i.val < 256 := by
  have hi := i.isLt
  simp only [indices, width, mem_map, mem_range]
  constructor
  · rintro ⟨k, hk, rfl⟩ rfl
    rw [if_pos rfl] at hk
    rw [Fin.val_ofNat]
    omega
  · intro h
    refine ⟨i.val, ?_, Fin.ext (Nat.mod_eq_of_lt hi)⟩
    split_ifs with h0
    · exact h h0
    · exact hi

theorem nodup_indices (d : ℕ) : (indices d).Nodup := by
  refine Nodup.map_on ?_ nodup_range
  intro a ha b hb hab
  have hw : width d ≤ 512 := by unfold width; split_ifs <;> omega
  have := congrArg Fin.val hab
  rw [mem_range] at ha hb
  simp only [Fin.val_ofNat] at this
  omega

theorem allowed_iff {π : List (Fin 512)} : Allowed indices π ↔ LowPath π := by
  constructor
  · exact fun h w hw => mem_indices.1 (h w [] hw) rfl
  · intro h i ρ hi
    rw [mem_indices]
    intro hlen
    rw [length_eq_zero_iff] at hlen
    exact h i (hlen ▸ hi)

section Frames

variable {mem : ℕ → Fin 512 → ℕ} {r f : ℕ} {π : List (Fin 512)}

theorem frameWalk_eq (hs : SmallPages mem r) (hlow : LowPath π) (hlen : π.length ≤ 3) :
    walk frameChild mem r π = pageWalk mem r π := by
  induction π with
  | nil => rfl
  | cons i π ih =>
    rw [length_cons] at hlen
    have hlow' := hlow.of_suffix (suffix_cons i π)
    rw [walk_cons, ih hlow' (by omega)]
    cases hπ : pageWalk mem r π with
    | none => rw [pageWalk_cons_none i hπ, Option.bind_none]
    | some t =>
      rw [pageWalk_cons i hπ, Option.bind_some, frameChild]
      by_cases hp : Present (mem t i)
      · rw [if_pos ⟨by omega, hp⟩, pageChild_eq_some (by omega) hp]
        intro hne
        exact hs π t i (fun h => hne (by rw [h]; rfl)) hlow' (by omega) hπ hp
      · rw [if_neg fun h => hp h.2, pageChild_eq_none_of_not_present hp]

theorem frameWalk_path (hs : SmallPages mem r) {v : PtOff} (hv : v.Low) :
    walk frameChild mem r v.path = some f ↔ ∃ fl, translate mem r v = some (f, fl) := by
  rw [path, walk_cons_eq_some, frameWalk_eq hs hv.tables (by simp)]
  simp only [hs.translate_eq_some hv, frameChild, length_cons, Prod.mk.injEq]
  constructor
  · rintro ⟨t, ht, hc⟩
    split_ifs at hc with hp
    exact ⟨_, t, ht, hp.2, (Option.some.inj hc).symm, rfl⟩
  · rintro ⟨fl, t, ht, hp, rfl, -⟩
    exact ⟨t, ht, if_pos ⟨by decide, hp⟩⟩

theorem length_of_frameWalk (h : walk frameChild mem r π = some f) : π.length ≤ 4 := by
  cases π with
  | nil => simp
  | cons i π =>
    obtain ⟨t, -, hc⟩ := walk_cons_eq_some.1 h
    rw [frameChild] at hc
    split_ifs at hc with hp
    simp only [length_cons]
    omega

/-- A path leads to a table, or it is the path of a page. -/
theorem frameWalk_cases (hs : SmallPages mem r) (hlow : LowPath π)
    (h : walk frameChild mem r π = some f) : pageWalk mem r π = some f ∨
      ∃ v fl, path v = π ∧ v.Low ∧ translate mem r v = some (f, fl) := by
  rcases Nat.lt_or_eq_of_le (length_of_frameWalk h) with hlen | hlen
  · exact Or.inl (frameWalk_eq hs hlow (by omega) ▸ h)
  · obtain ⟨v, rfl⟩ : ∃ v, path v = π := by
      match π, hlen with
      | [a, b, c, d], _ => exact ⟨⟨d, c, b, a⟩, rfl⟩
    have hv := lowPath_path.1 hlow
    obtain ⟨fl, hfl⟩ := (frameWalk_path hs hv).1 h
    exact Or.inr ⟨v, fl, rfl, hv, hfl⟩

/-- **What is freed**: the root, the tables and the mapped frames of the lower half. -/
theorem mem_frames (hs : SmallPages mem r) :
    f ∈ frames mem r ↔ (∃ π, LowPath π ∧ pageWalk mem r π = some f) ∨
      ∃ v fl, v.Low ∧ translate mem r v = some (f, fl) := by
  refine (mem_postorder (π := []) (r := r) walk_nil (allowed_iff.2 lowPath_nil)).trans ?_
  simp only [append_nil, allowed_iff]
  constructor
  · rintro ⟨π, -, hlow, hw⟩
    rcases frameWalk_cases hs hlow hw with hw | ⟨v, fl, -, hv⟩
    · exact Or.inl ⟨π, hlow, hw⟩
    · exact Or.inr ⟨v, fl, hv⟩
  · rintro (⟨π, hlow, hw⟩ | ⟨v, fl, hv, hw⟩)
    · have hlen := length_of_pageWalk hw
      exact ⟨π, by omega, hlow, (frameWalk_eq hs hlow hlen).trans hw⟩
    · exact ⟨v.path, le_rfl, lowPath_path.2 hv, (frameWalk_path hs hv).2 ⟨fl, hw⟩⟩

theorem nodup_frames (hd : Distinct pageChild mem r) (hs : SmallPages mem r)
    (hinj : ∀ u v g fl fl', u.Low → v.Low → translate mem r u = some (g, fl) →
      translate mem r v = some (g, fl') → u = v)
    (hdata : ∀ v g fl, v.Low → translate mem r v = some (g, fl) → ¬ IsPageTable mem r g) :
    (frames mem r).Nodup := by
  refine nodup_postorder (π := []) (r := r) nodup_indices ?_ walk_nil
    (allowed_iff.2 lowPath_nil)
  intro π π' t hπ hπ' hw hw'
  rw [allowed_iff] at hπ hπ'
  rcases frameWalk_cases hs hπ hw with hw | ⟨v, fl, rfl, hv, hfl⟩ <;>
    rcases frameWalk_cases hs hπ' hw' with hw' | ⟨v', fl', rfl, hv', hfl'⟩
  · exact hd π π' t hw hw'
  · exact absurd ⟨π, hw⟩ (hdata v' t fl' hv' hfl')
  · exact absurd ⟨π', hw'⟩ (hdata v t fl hv hfl)
  · rw [hinj v v' t fl fl' hv hv' hfl hfl']

end Frames

namespace Machine

variable {s s' s'' : Machine} {f : ℕ} {body : Fin 512 → Ptr → Machine → Except Halt Machine}

/-! ### Freeing a list of frames -/

/-- `pmm_unalloc` of one frame. -/
def freeFrame (s : Machine) (f : ℕ) : Except Halt Machine := s.pmmUnalloc (f * 0x1000) 0x1000

/-- The frames of `l` were freed. -/
structure FreedBy (l : List ℕ) (s s' : Machine) : Prop where
  mem : s'.mem = s.mem
  max : s'.pmm.bitmapMaxPage = s.pmm.bitmapMaxPage
  used : ∀ f, s'.pmm.Used f ↔ s.pmm.Used f ∧ f ∉ l
  balanced : l.Nodup → (∀ f ∈ l, s.pmm.Used f) → Pmm.Balanced s.pmm s'.pmm

theorem foldlM_freeFrame_singleton (f : ℕ) : [f].foldlM freeFrame s = s.freeFrame f := by
  rw [foldlM_cons]
  cases s.freeFrame f <;> rfl

theorem mem_of_freeFrame (h : s.freeFrame f = .ok s') : s'.mem = s.mem := by
  obtain ⟨p, -, rfl⟩ := map_eq_ok.1 h
  rfl

theorem freeFrame_eq (hf : f < s.pmm.bitmapMaxPage) :
    ∃ s', s.freeFrame f = .ok s' ∧ FreedBy [f] s s' := by
  have hmax := s.pmm.maxPage_le
  obtain ⟨p, hp, hm, hu, hb⟩ := @Pmm.pmmUnalloc_eq s.pmm f 0x1000 (by omega)
    (by rw [Pmm.pagesOf_page]; omega)
  rw [Pmm.pagesOf_page] at hu hb
  refine ⟨{ s with pmm := p }, by rw [freeFrame, pmmUnalloc, hp]; rfl, rfl, hm, fun g => ?_,
    fun _ hused => hb fun g h1 h2 => hused g ?_⟩
  · rw [hu, mem_singleton]
    constructor
    · exact fun ⟨h1, h2⟩ => ⟨h2, fun h => h1 (by omega)⟩
    · exact fun ⟨h1, h2⟩ => ⟨fun h => h2 (by omega), h1⟩
  · rw [mem_singleton]
    omega

theorem FreedBy.append {l l' : List ℕ} (h : FreedBy l s s') (h' : FreedBy l' s' s'') :
    FreedBy (l ++ l') s s'' where
  mem := h'.mem.trans h.mem
  max := h'.max.trans h.max
  used f := by
    rw [h'.used, h.used, mem_append, not_or, and_assoc]
  balanced hnd hused := by
    obtain ⟨h1, h2, h3⟩ := nodup_append.1 hnd
    refine (h.balanced h1 fun f hf => hused f (mem_append_left _ hf)).trans
      (h'.balanced h2 fun f hf => (h.used f).2 ⟨hused f (mem_append_right _ hf), ?_⟩)
    exact fun hfl => h3 f hfl f hf rfl

theorem freeFrames_eq {l : List ℕ} (hl : ∀ f ∈ l, f < s.pmm.bitmapMaxPage) :
    ∃ s', l.foldlM freeFrame s = .ok s' ∧ FreedBy l s s' := by
  induction l generalizing s with
  | nil => exact ⟨s, rfl, rfl, rfl, by simp, fun _ _ => Pmm.Balanced.refl _⟩
  | cons f l ih =>
    obtain ⟨s1, h1, hf⟩ := s.freeFrame_eq (hl f mem_cons_self)
    obtain ⟨s2, h2, hl⟩ := ih (s := s1) fun g hg => hf.max ▸ hl g (mem_cons_of_mem f hg)
    refine ⟨s2, ?_, hf.append hl⟩
    rw [foldlM_cons, h1, ok_bind, h2]

/-! ### The traversal -/

/-- A loop over present entries whose body frees a list of frames. -/
theorem forPresent_eq_foldlM {n t : ℕ} {table : Ptr} (htab : tableFrame table = t)
    (sub : Fin 512 → List ℕ)
    (hbody : ∀ i s', s'.mem = s.mem → Present (s.mem t i) →
      body i (s'.traversePageTable table i) s' = (sub i).foldlM freeFrame s') :
    s.forPresent n table body =
      (((List.range n).map (Fin.ofNat 512)).flatMap fun i =>
        if Present (s.mem t i) then sub i else []).foldlM freeFrame s := by
  unfold forPresent
  rw [flatMap_map]
  refine forRange_eq_foldlM (fun s' => s'.mem = s.mem)
    (fun _ _ _ h h' => (mem_of_freeFrame h').trans h) _ rfl fun i s' _ hs' => ?_
  dsimp only
  rw [entries, htab, hs']
  by_cases hp : Present (s.mem t (Fin.ofNat 512 i))
  · rw [if_pos hp, if_pos hp, hbody _ s' hs' hp]
  · rw [if_neg hp, if_neg hp]
    rfl

theorem freeLevel_eq {h d : ℕ} (hd : d ≤ 3) (hf : f < 2 ^ 52)
    (hbody : ∀ i g s', s'.mem = s.mem → g < 2 ^ 52 →
      body i (getHigherHalf (g * 0x1000)) s' =
        (postorder frameChild s'.mem indices h (d + 1) g).foldlM freeFrame s') :
    (s.forPresent (width d) (getHigherHalf (f * 0x1000)) body >>= fun s' =>
        s'.pmmUnalloc (getLowerHalf (getHigherHalf (f * 0x1000))) 0x1000) =
      (postorder frameChild s.mem indices (h + 1) d f).foldlM freeFrame s := by
  have htab := tableFrame_getHigherHalf hf
  rw [forPresent_eq_foldlM htab
    fun i => postorder frameChild s.mem indices h (d + 1) (entryFrame (s.mem f i))]
  · rw [postorder, foldlM_append, getLowerHalf_getHigherHalf (by omega)]
    refine congrArg₂ _ ?_ ?_
    · rw [indices]
      congr 2
      funext i
      rw [frameChild]
      by_cases hp : Present (s.mem f i)
      · rw [if_pos hp, if_pos ⟨hd, hp⟩]
        rfl
      · rw [if_neg hp, if_neg fun h => hp h.2]
        rfl
    · funext s'
      rw [foldlM_freeFrame_singleton, freeFrame]
  · intro i s' hs' _
    rw [traversePageTable_eq, entries, htab, hs', hbody i _ s' hs' (entryFrame_lt _), hs']

/-- **`vmm_deconstruct_address_space` frees the frames of the lower half, one after the other.** -/
theorem vmmDeconstructAddressSpace_eq {r : ℕ} (hr : r < 2 ^ 52) :
    s.vmmDeconstructAddressSpace (r * 0x1000) = (frames s.mem r).foldlM freeFrame s := by
  unfold vmmDeconstructAddressSpace frames
  have hroot : ∀ s' : Machine, s'.pmmUnalloc (r * 0x1000) 0x1000 =
      s'.pmmUnalloc (getLowerHalf (getHigherHalf (r * 0x1000))) 0x1000 := fun s' => by
    rw [getLowerHalf_getHigherHalf (by omega)]
  simp only [hroot]
  refine freeLevel_eq (d := 0) (by decide) hr fun _ z s1 _ hz => ?_
  refine freeLevel_eq (d := 1) (by decide) hz fun _ y s2 _ hy => ?_
  refine freeLevel_eq (d := 2) (by decide) hy fun _ x s3 _ hx => ?_
  refine freeLevel_eq (d := 3) (by decide) hx fun _ g s4 _ hg => ?_
  rw [getLowerHalf_getHigherHalf (by omega), postorder, foldlM_freeFrame_singleton, freeFrame]

/-! ### Forking and tearing down -/

variable {o : ℕ}

theorem mem_frames_of_forkInv {n f : ℕ} (h : ForkInv s o n (2 ^ 35) s') :
    f ∈ frames s'.mem n ↔ s'.pmm.Used f ∧ ¬ s.pmm.Used f := by
  rw [mem_frames h.small, h.used]
  constructor
  · rintro (⟨π, hlow, hπ⟩ | ⟨v, fl, hv, hf⟩)
    · exact ⟨Or.inr (Or.inl ⟨π, hlow, hπ⟩), (h.lowTables π f hlow hπ).1⟩
    · exact ⟨Or.inr (Or.inr ⟨v, fl, hv, hf⟩), (h.data v f fl hv hf).1⟩
  · rintro ⟨hf | hf, hnu⟩
    · exact absurd hf hnu
    · exact hf

/-- **Forking and tearing down the copy restores the physical memory manager**: the frames that were
handed out are freed, each once. -/
theorem vmmFork_deconstruct_restores (hs : Forkable s o)
    (hne : s.vmmFork (o * 0x1000) ≠ .error .noFreeMemory) :
    ∃ n s₁ s₂, s.vmmFork (o * 0x1000) = .ok (n * 0x1000, s₁) ∧
      s₁.vmmDeconstructAddressSpace (n * 0x1000) = .ok s₂ ∧ s₂.pmm = s.pmm ∧
      s₁.vmmDeconstructAddressSpace (n * 0x1000) = (frames s₁.mem n).foldlM freeFrame s₁ ∧
      (frames s₁.mem n).Nodup ∧
      (∀ f, f ∈ frames s₁.mem n ↔ s₁.pmm.Used f ∧ ¬ s.pmm.Used f) ∧
      (∀ t, IsPageTable s.mem o t → t ∉ frames s₁.mem n) ∧
      ∀ v f fl, v.Low → translate s.mem o v = some (f, fl) → f ∉ frames s₁.mem n := by
  obtain ⟨⟨_, s₁⟩, heq, n, rfl, h⟩ := (vmmFork_spec hs).exists_ok hne
  have hfold := s₁.vmmDeconstructAddressSpace_eq h.tree.root_lt
  have hmem := fun f => @mem_frames_of_forkInv s s₁ o n f h
  have hnodup := nodup_frames h.tree.distinct h.small h.inj
    fun v g fl hv hg => (h.data v g fl hv hg).2.2.2
  have hlt : ∀ f ∈ frames s₁.mem n, f < s₁.pmm.bitmapMaxPage := by
    intro f hf
    rw [← h.balanced.1]
    rcases (mem_frames h.small).1 hf with ⟨π, hlow, hπ⟩ | ⟨v, fl, hv, hv'⟩
    · exact (h.lowTables π f hlow hπ).2
    · exact (h.data v f fl hv hv').2.1
  obtain ⟨s₂, hs2, hfreed⟩ := freeFrames_eq hlt
  have hbal := h.balanced.trans (hfreed.balanced hnodup fun f hf => ((hmem f).1 hf).1)
  refine ⟨n, s₁, s₂, heq, hfold.trans hs2, (hbal.eq_of_used fun f => ?_).symm, hfold, hnodup,
    hmem, fun t ⟨π, hπ⟩ ht => ((hmem t).1 ht).2 (hs.tree.used π t hπ), ?_⟩
  · rw [hfreed.used, hmem]
    constructor
    · exact fun hf => ⟨h.used_of_used hf, fun h' => h'.2 hf⟩
    · exact fun ⟨h1, h2⟩ => by_contra fun hf => h2 ⟨h1, hf⟩
  · intro v f fl hv hf hfr
    have hlt' := hlt f hfr
    rw [← h.balanced.1] at hlt'
    exact (hs.data v f fl hv hf).2.elim ((hmem f).1 hfr).2 fun hge => by omega

theorem vmmFork_deconstruct_onePage :
    ∃ n s₁ s₂, (onePage 0xff).vmmFork 0x1000 = .ok (n * 0x1000, s₁) ∧
      s₁.vmmDeconstructAddressSpace (n * 0x1000) = .ok s₂ ∧ s₂.pmm = (onePage 0xff).pmm := by
  obtain ⟨n, s₁, s₂, h1, h2, h3, -⟩ := @vmmFork_deconstruct_restores (onePage 0xff) 1
    forkable_onePage (ne_error_of_isOk (by decide +kernel) _)
  exact ⟨n, s₁, s₂, h1, h2, h3⟩

/-- **Distinct, used tables and small pages are not enough.**  With a table in frame 0 there is no
copy; with a mapped frame that is free, the copy is built in that frame and frees it. -/
theorem vmmFork_deconstruct_not_restores :
    (TreeOk tableInFrameZero 1 ∧ SmallPages tableInFrameZero.mem 1 ∧
      tableInFrameZero.vmmFork 0x1000 = .error .fault) ∧
    (TreeOk (onePage 0x7f) 1 ∧ SmallPages (onePage 0x7f).mem 1 ∧
      translate (onePage 0x7f).mem 1 ⟨255, 511, 511, 511⟩ = some (7, 7) ∧
      ∃ s', (onePage 0x7f).vmmFork 0x1000 = .ok (7 * 0x1000, s') ∧
        s'.vmmDeconstructAddressSpace (7 * 0x1000) = (frames s'.mem 7).foldlM freeFrame s' ∧
        7 ∈ frames s'.mem 7) := by
  have h : ((onePage 0x7f).vmmFork 0x1000).toOption.map Prod.fst = some (7 * 0x1000) := by
    decide +kernel
  obtain ⟨⟨_, s'⟩, heq, rfl⟩ := exists_ok_of_map h
  exact ⟨vmmFork_tableInFrameZero, treeOk_onePage (by decide), smallPages_onePage _,
    by decide +kernel, s', heq, vmmDeconstructAddressSpace_eq (by decide),
    mem_append_right _ (mem_singleton_self 7)⟩

end Machine

end DripOS
