import DripOS.Mm.LowerHalf

/-!
# What `virt_to_phys` finds

`virt_to_phys` does not look at the present bits of the upper levels: it takes a table for a failed
walk when its address is not above the start of the direct map.  On trees whose absent entries are
zero (`Clean`), the result is a failure, or the frame of the page, with one exception
(`virtToPhys_cases`): when the entry of the third level is absent, physical page 0 is read as if it
were a table, before the address is checked (`Stray`).

* `virtToPhys_walk_iff` : when the result is that of the walk of the processor;
* `rangeMapped_iff` : when `range_mapped` tells whether all pages of a range are mapped.  It leaves
  out the page in which the range ends.
-/

namespace DripOS

open TableTree

/-- Entries that are not present are zero. -/
def Clean (mem : ℕ → Fin 512 → ℕ) (r : ℕ) : Prop :=
  ∀ π t i, pageWalk mem r π = some t → ¬ Present (mem t i) → mem t i = 0

theorem Touch.clean_of_clean {r : ℕ} {V : Set PtOff} {s s' : Machine} (h : Touch r V s s')
    (hc : Clean s.mem r) : Clean s'.mem r := by
  intro π t i ht hp
  rcases h.clean π t i ht hp with h0 | ⟨hw, he⟩
  · exact h0
  · rw [he] at hp ⊢
    exact hc π t i hw hp

/-- The walk ends at an absent entry of the third level, and physical page 0 holds what looks like
an entry of 2 MiB where the walk goes on. -/
def Stray (mem : ℕ → Fin 512 → ℕ) (r : ℕ) (v : PtOff) : Prop :=
  (∃ t, pageWalk mem r [v.p4Off] = some t ∧ ¬ Present (mem t v.p3Off)) ∧ Huge (mem 0 v.p2Off)

/-- The tables on the way to `v` are in frames that `virt_to_phys` goes on to. -/
def Traced (mem : ℕ → Fin 512 → ℕ) (r : ℕ) (v : PtOff) : Prop :=
  (∀ t₃, pageWalk mem r [v.p4Off] = some t₃ → Followed t₃) ∧
    ∀ t₂ t₁, pageWalk mem r [v.p3Off, v.p4Off] = some t₂ →
      pageWalk mem r [v.p2Off, v.p3Off, v.p4Off] = some t₁ → Followed t₂ ∧ Followed t₁

/-- `virt_to_phys` goes on to physical page 0, and returns. -/
def StrayFollowed (mem : ℕ → Fin 512 → ℕ) (r : ℕ) (v : PtOff) : Prop :=
  Stray mem r v ∧ ∀ t₃, pageWalk mem r [v.p4Off] = some t₃ → Followed t₃

/-- What is returned then. -/
def strayResult (mem : ℕ → Fin 512 → ℕ) (v : PtOff) (virt : ℕ) : ℕ :=
  (entryFrame (mem 0 v.p2Off) * 0x1000 + virt % 2 ^ 21) % 2 ^ 64

theorem not_followed_zero : ¬ Followed (entryFrame 0) := by decide

namespace Machine

variable {s : Machine} {r virt f fl res n cur : ℕ} {v : PtOff} {mem : ℕ → Fin 512 → ℕ}

theorem virtToPhys_of_mapped (hr : r < 2 ^ 52) (hreg : Regular s.mem r v)
    (hvirt : vmmVirtToOffs virt = v) (h : translate s.mem r v = some (f, fl)) :
    (Traced s.mem r v → s.virtToPhys virt (r * 0x1000) = f * 0x1000 + virt % 0x1000) ∧
      (¬ Traced s.mem r v → s.virtToPhys virt (r * 0x1000) = notMapped) := by
  obtain ⟨t3, t2, hw3, hw2, rfl, rfl, hleaf⟩ := hreg.translate_cases h
  rw [virtToPhys_eq hr hvirt]
  dsimp only
  rcases hleaf with ⟨hhuge, ha, rfl⟩ | ⟨hsmall, t1, hw1, rfl, hp, rfl⟩
  · -- the table of the second level is not asked for
    have hp1 : v.p1Off.val = virt / 2 ^ 12 % 512 := hvirt ▸ val_tableIndex virt 12
    have hlt := entryFrame_lt (s.mem (entryFrame (s.mem (entryFrame (s.mem r v.p4Off)) v.p3Off))
      v.p2Off)
    have hnone : ∀ t1, pageWalk s.mem r v.tables ≠ some t1 := by
      intro t1 hw1
      obtain ⟨t3, t2, -, -, rfl, rfl, -, hh⟩ := pageWalk_entries hw1
      exact hh hhuge
    rw [if_pos hhuge]
    constructor
    · intro ht
      rw [if_pos (ht.1 _ hw3), hp1]
      omega
    · intro ht
      refine if_neg fun h3 => ht ⟨fun t hw => ?_, fun t t1 _ hw => absurd hw (hnone t1)⟩
      rw [hw3] at hw
      cases hw
      exact h3
  · rw [if_neg hsmall]
    constructor
    · intro ht
      obtain ⟨h2, h1⟩ := ht.2 _ _ hw2 hw1
      rw [if_pos (ht.1 _ hw3), if_pos ⟨h2, h1, hp⟩]
    · intro ht
      split_ifs with h3 hsub
      · refine absurd ⟨fun t hw => ?_, fun t t' hw hw' => ?_⟩ ht
        · rw [hw3] at hw
          cases hw
          exact h3
        · rw [hw2] at hw
          rw [hw1] at hw'
          cases hw
          cases hw'
          exact ⟨hsub.1, hsub.2.1⟩
      · rfl
      · rfl

theorem virtToPhys_of_absent (hr : r < 2 ^ 52) (hc : Clean s.mem r) (hreg : Regular s.mem r v)
    (hvirt : vmmVirtToOffs virt = v) (h : translate s.mem r v = none) :
    (StrayFollowed s.mem r v → s.virtToPhys virt (r * 0x1000) = strayResult s.mem v virt) ∧
      (¬ StrayFollowed s.mem r v → s.virtToPhys virt (r * 0x1000) = notMapped) := by
  have hw0 : pageWalk s.mem r [] = some r := rfl
  rw [virtToPhys_eq hr hvirt]
  dsimp only
  by_cases hp4 : Present (s.mem r v.p4Off)
  swap
  · -- no table of the third level
    have hnone : pageWalk s.mem r [v.p4Off] = none := by
      rw [pageWalk_cons _ hw0, pageChild_eq_none_of_not_present hp4]
    rw [hc _ _ _ hw0 hp4, if_neg not_followed_zero]
    refine ⟨fun ⟨⟨⟨t3, ht3, _⟩, _⟩, _⟩ => ?_, fun _ => rfl⟩
    rw [hnone] at ht3
    cases ht3
  have hw3 : pageWalk s.mem r [v.p4Off] = some (entryFrame (s.mem r v.p4Off)) := by
    rw [pageWalk_cons _ hw0, pageChild_eq_some (by simp) hp4 (by simp)]
  rw [translate, if_neg (not_not.2 hp4)] at h
  generalize entryFrame (s.mem r v.p4Off) = t3 at hw3 h
  by_cases hp3 : Present (s.mem t3 v.p3Off)
  swap
  · -- the walk goes on to physical page 0
    have hzero : entryFrame (s.mem t3 v.p3Off) = 0 := by
      rw [hc _ _ _ hw3 hp3]
      decide
    rw [hzero]
    constructor
    · rintro ⟨⟨-, hh⟩, hf⟩
      rw [if_pos (hf _ hw3), if_pos hh]
      rfl
    · intro hs
      split_ifs with hf hh hsub
      · refine absurd ⟨⟨⟨t3, hw3, hp3⟩, hh⟩, fun t ht => ?_⟩ hs
        obtain rfl := Option.some.inj (hw3.symm.trans ht)
        exact hf
      · exact absurd hsub.1 (by decide)
      · rfl
      · rfl
  have hno : ¬ StrayFollowed s.mem r v := by
    rintro ⟨⟨⟨t, ht, hp⟩, -⟩, -⟩
    rw [hw3] at ht
    cases ht
    exact hp hp3
  refine ⟨fun hs => absurd hs hno, fun _ => ?_⟩
  have hgiant := hreg.noGiant _ hw3 hp3
  have hw2 := (pageWalk_cons v.p3Off hw3).trans (pageChild_eq_some (by simp) hp3 fun _ => hgiant)
  rw [if_neg (not_not.2 hp3), if_neg hgiant] at h
  generalize entryFrame (s.mem t3 v.p3Off) = t2 at hw2 h
  by_cases hp2 : Present (s.mem t2 v.p2Off)
  swap
  · rw [hc _ _ _ hw2 hp2, if_neg (by decide : ¬ Huge 0)]
    split_ifs with hf hsub
    · exact absurd hsub.2.1 not_followed_zero
    · rfl
    · rfl
  · rw [if_neg (not_not.2 hp2)] at h
    by_cases hh : Huge (s.mem t2 v.p2Off)
    · rw [if_pos hh] at h
      cases h
    · rw [if_neg hh] at h ⊢
      split_ifs with hf hsub
      · rw [if_neg (not_not.2 hsub.2.2)] at h
        cases h
      · rfl
      · rfl

/-- **The three results of `virt_to_phys`.** -/
theorem virtToPhys_cases {v : PtOff} {virt : ℕ} (hr : r < 2 ^ 52) (hc : Clean s.mem r)
    (hreg : Regular s.mem r v) (hvirt : vmmVirtToOffs virt = v) :
    s.virtToPhys virt (r * 0x1000) = notMapped ∨
    (∃ f fl, translate s.mem r v = some (f, fl) ∧
      s.virtToPhys virt (r * 0x1000) = f * 0x1000 + virt % 0x1000) ∨
    Stray s.mem r v := by
  cases h : translate s.mem r v with
  | some x =>
    obtain ⟨hyes, hno⟩ := virtToPhys_of_mapped hr hreg hvirt h
    by_cases ht : Traced s.mem r v
    · exact Or.inr (Or.inl ⟨x.1, x.2, rfl, hyes ht⟩)
    · exact Or.inl (hno ht)
  | none =>
    by_cases hs : StrayFollowed s.mem r v
    · exact Or.inr (Or.inr hs.1)
    · exact Or.inl ((virtToPhys_of_absent hr hc hreg hvirt h).2 hs)

/-! ### The walk of the processor -/

/-- What `virt_to_phys` should return: the physical address of a mapped byte, else a failure. -/
def WalkResult (mem : ℕ → Fin 512 → ℕ) (r virt res : ℕ) : Prop :=
  (res = notMapped ↔ translate mem r (vmmVirtToOffs virt) = none) ∧
    ∀ f fl, translate mem r (vmmVirtToOffs virt) = some (f, fl) → res = f * 0x1000 + virt % 0x1000

/-- The tables on the way to `v` are in the direct map. -/
def WalkDirect (mem : ℕ → Fin 512 → ℕ) (r : ℕ) (v : PtOff) : Prop :=
  ∀ π t, π <:+ v.tables → pageWalk mem r π = some t → InDirectMap t

/-- The pages and the trees for which it does. -/
structure Traceable (mem : ℕ → Fin 512 → ℕ) (r virt : ℕ) : Prop where
  /-- A mapped byte is found, and is not the last one of the address space. -/
  mapped : ∀ f fl, translate mem r (vmmVirtToOffs virt) = some (f, fl) →
    Traced mem r (vmmVirtToOffs virt) ∧ f * 0x1000 + virt % 0x1000 ≠ notMapped
  /-- Physical page 0 does not look like a table of the second level. -/
  absent : StrayFollowed mem r (vmmVirtToOffs virt) →
    strayResult mem (vmmVirtToOffs virt) virt = notMapped

theorem walkResult_some (h : translate mem r (vmmVirtToOffs virt) = some (f, fl)) :
    WalkResult mem r virt res ↔
      f * 0x1000 + virt % 0x1000 ≠ notMapped ∧ res = f * 0x1000 + virt % 0x1000 := by
  constructor
  · rintro ⟨hnone, hsome⟩
    have hres := hsome f fl h
    refine ⟨fun he => ?_, hres⟩
    rw [hnone.1 (hres.trans he)] at h
    cases h
  · rintro ⟨hne, rfl⟩
    refine ⟨⟨fun he => absurd he hne, fun hn => ?_⟩, fun f' fl' h' => ?_⟩
    · rw [hn] at h
      cases h
    · rw [h] at h'
      cases h'
      rfl

theorem walkResult_none (h : translate mem r (vmmVirtToOffs virt) = none) :
    WalkResult mem r virt res ↔ res = notMapped := by
  constructor
  · rintro ⟨hnone, -⟩
    exact hnone.2 h
  · intro hres
    refine ⟨⟨fun _ => h, fun _ => hres⟩, fun f fl h' => ?_⟩
    rw [h] at h'
    cases h'

/-- On a mapped page the walk does not go on to physical page 0. -/
theorem not_stray_of_mapped {x : ℕ × ℕ} (h : translate mem r v = some x) :
    ¬ StrayFollowed mem r v := by
  rintro ⟨⟨⟨t3, hw3, hp⟩, -⟩, -⟩
  rw [translate_eq_none (i := v.p3Off) (π := [v.p4Off]) (t := t3)
    (by simp [PtOff.path, List.suffix_cons_iff]) hw3 hp] at h
  cases h

/-- **When `virt_to_phys` gives the result of the walk**, over tables that it can read. -/
theorem virtToPhys_walk_iff (hd : WalkDirect s.mem r (vmmVirtToOffs virt)) (hc : Clean s.mem r)
    (hreg : Regular s.mem r (vmmVirtToOffs virt)) :
    WalkResult s.mem r virt (s.virtToPhys virt (r * 0x1000)) ↔ Traceable s.mem r virt := by
  have hr : r < 2 ^ 52 := (hd [] r List.nil_suffix rfl).trans (by decide)
  cases h : translate s.mem r (vmmVirtToOffs virt) with
  | some x =>
    obtain ⟨hyes, hno⟩ := virtToPhys_of_mapped hr hreg rfl h
    rw [walkResult_some h]
    constructor
    · rintro ⟨hne, hres⟩
      have ht : Traced s.mem r (vmmVirtToOffs virt) := by
        by_contra ht
        exact hne (hres.symm.trans (hno ht))
      refine ⟨fun f fl hx => ?_, fun hs => absurd hs (not_stray_of_mapped h)⟩
      rw [h] at hx
      cases hx
      exact ⟨ht, hne⟩
    · intro ht
      obtain ⟨htr, hne⟩ := ht.mapped x.1 x.2 h
      exact ⟨hne, hyes htr⟩
  | none =>
    obtain ⟨hyes, hno⟩ := virtToPhys_of_absent hr hc hreg rfl h
    rw [walkResult_none h]
    constructor
    · intro hres
      refine ⟨fun f fl hx => ?_, fun hs => (hyes hs).symm.trans hres⟩
      rw [h] at hx
      cases hx
    · intro ht
      by_cases hs : StrayFollowed s.mem r (vmmVirtToOffs virt)
      · rw [hyes hs, ht.absent hs]
      · exact hno hs

/-- A page of 2 MiB, and an entry of 2 MiB in physical page 0, which is no table. -/
def strayPage : Machine where
  mem f i :=
    match f, i.val with
    | 0, 0 => 0x80
    | 1, 0 => tableEntry 2
    | 2, 1 => tableEntry 3
    | 3, 0 => 0x200083
    | _, _ => 0
  pmm := .ofBitmap 1024 4 fun i => if i = 0 then 0x0f else 0

/-- The tables of `strayPage`. -/
def strayPageTables : List (List (Fin 512) × ℕ) := [([], 1), ([0], 2), ([1, 0], 3)]

theorem describes_strayPage : Describes pageChild strayPage.mem 1 strayPageTables :=
  describes_of_check (by decide +kernel)

theorem clean_strayPage : Clean strayPage.mem 1 := by
  intro π t i ht hp
  have h : ∀ x ∈ strayPageTables, ∀ i, ¬ Present (strayPage.mem x.2 i) →
      strayPage.mem x.2 i = 0 := by decide +kernel
  exact h _ (describes_strayPage.mem ht) i hp

theorem regular_strayPage (v : PtOff) : Regular strayPage.mem 1 v :=
  Regular.of_describes describes_strayPage (by decide +kernel) (by decide +kernel) v

/-- The page of 2 MiB is found. -/
theorem virtToPhys_walk_strayPage :
    WalkResult strayPage.mem 1 0x40001234 (strayPage.virtToPhys 0x40001234 0x1000) := by
  have hfollowed : ∀ x ∈ strayPageTables, Followed x.2 := by decide
  refine (virtToPhys_walk_iff (r := 1) (fun π t _ ht => ?_) clean_strayPage
    (regular_strayPage _)).2 ?_
  · exact (hfollowed _ (describes_strayPage.mem ht)).2
  have htr : translate strayPage.mem 1 (vmmVirtToOffs 0x40001234) = some (0x201, 0x83) := by
    decide +kernel
  refine ⟨fun f fl h => ?_, fun hs => absurd hs (not_stray_of_mapped htr)⟩
  cases h
  refine ⟨⟨fun t3 ht => ?_, fun t2 t1 _ ht => ?_⟩, by decide⟩
  · exact hfollowed _ (describes_strayPage.mem ht)
  · have hmem := describes_strayPage.mem ht
    have h : ∀ x ∈ strayPageTables, x.1.length ≠ 3 := by decide
    exact absurd rfl (h _ hmem)

/-- Address 0 is not mapped, but `virt_to_phys` returns 0. -/
theorem virtToPhys_strayPage :
    translate strayPage.mem 1 (vmmVirtToOffs 0) = none ∧ strayPage.virtToPhys 0 0x1000 = 0 := by
  decide +kernel

/-! ### Ranges -/

/-- A loop that tests one page after the other. -/
theorem pageLoop_iff {loop : ℕ → ℕ → Bool} {test : ℕ → Bool} (hzero : ∀ cur, loop 0 cur = true)
    (hsucc : ∀ n cur, loop (n + 1) cur =
      if !test cur then false else loop n ((cur + 0x1000) % 2 ^ 64)) (hcur : cur < 2 ^ 64) :
    loop n cur = true ↔ ∀ i < n, test ((cur + i * 0x1000) % 2 ^ 64) = true := by
  induction n generalizing cur with
  | zero => simp [hzero]
  | succ n ih =>
    have hfirst : (cur + 0 * 0x1000) % 2 ^ 64 = cur := by omega
    have hshift : ∀ i, ((cur + 0x1000) % 2 ^ 64 + i * 0x1000) % 2 ^ 64 =
        (cur + (i + 1) * 0x1000) % 2 ^ 64 := fun i => by omega
    rw [hsucc, Nat.forall_lt_succ_left', hfirst]
    cases hm : test cur with
    | false => simp
    | true =>
      simp only [Bool.not_true, Bool.false_eq_true, if_false, true_and]
      rw [ih (Nat.mod_lt _ (by decide))]
      simp only [hshift]

theorem rangeMappedLoop_iff (base : ℕ) (hcur : cur < 2 ^ 64) :
    s.rangeMappedLoop base n cur = true ↔
      ∀ i < n, s.isMapped base ((cur + i * 0x1000) % 2 ^ 64) = true :=
  pageLoop_iff (fun _ => rfl) (fun _ _ => rfl) hcur

/-- The page `p` holds a byte of the range. -/
def InRange (data size p : ℕ) : Prop := data / 0x1000 ≤ p ∧ p ≤ (data + size - 1) / 0x1000

/-- `range_mapped` does not look at the page in which the range ends, and at no page when the range
is the whole address space up to the first page. -/
def Unseen (data size p : ℕ) : Prop :=
  (data + size) / 0x1000 ≤ p ∨ data < 0x1000 ∧ data + size = 2 ^ 64

variable {base data size : ℕ}

theorem and_permMask_of_lt {a : ℕ} (h : a < 2 ^ 64) :
    a &&& vmm4kPermMask = a / 0x1000 * 0x1000 := by
  rw [and_permMask, entryFrame_eq]
  omega

/-- **The pages `range_mapped` looks at.** -/
theorem rangeMapped_eq_true (hsize : 1 ≤ size) (hlt : size < 2 ^ 64) (hend : data + size ≤ 2 ^ 64) :
    s.rangeMapped base data size = true ↔
      ∀ p, InRange data size p → ¬ Unseen data size p → s.isMapped base (p * 0x1000) = true := by
  have hstart := and_permMask_of_lt (show data < 2 ^ 64 by omega)
  have hpages : rangePages data size = if data < 0x1000 ∧ data + size = 2 ^ 64 then 0
      else (data + size) / 0x1000 - data / 0x1000 := by
    unfold rangePages
    dsimp only
    rw [hstart, and_permMask_of_lt (Nat.mod_lt _ (by decide))]
    split_ifs with hall <;> omega
  unfold rangeMapped
  rw [hstart, rangeMappedLoop_iff base (by omega), hpages]
  unfold InRange Unseen
  constructor
  · intro h p hp hseen
    have hpage := h (p - data / 0x1000) (by rw [if_neg (by omega)]; omega)
    rwa [show (data / 0x1000 * 0x1000 + (p - data / 0x1000) * 0x1000) % 2 ^ 64 = p * 0x1000 by
      omega] at hpage
  · intro h i hi
    split_ifs at hi with hall
    · cases hi
    · have hpage := h (data / 0x1000 + i) (by omega) (by omega)
      rwa [show (data / 0x1000 + i) * 0x1000 =
        (data / 0x1000 * 0x1000 + i * 0x1000) % 2 ^ 64 by omega] at hpage

/-- **When `range_mapped` tells whether all pages of a range are mapped**: a page that it looks at
is not mapped, or the others are. -/
theorem rangeMapped_iff (hsize : 1 ≤ size) (hlt : size < 2 ^ 64) (hend : data + size ≤ 2 ^ 64) :
    (s.rangeMapped base data size = true ↔
        ∀ p, InRange data size p → s.isMapped base (p * 0x1000) = true) ↔
      (∃ p, InRange data size p ∧ ¬ Unseen data size p ∧ s.isMapped base (p * 0x1000) = false) ∨
        ∀ p, InRange data size p → Unseen data size p → s.isMapped base (p * 0x1000) = true := by
  rw [rangeMapped_eq_true hsize hlt hend]
  constructor
  · intro h
    by_cases hall : ∀ p, InRange data size p → ¬ Unseen data size p →
        s.isMapped base (p * 0x1000) = true
    · exact Or.inr fun p hp _ => h.1 hall p hp
    · simp only [not_forall, Bool.not_eq_true] at hall
      obtain ⟨p, hp, hseen, hm⟩ := hall
      exact Or.inl ⟨p, hp, hseen, hm⟩
  · rintro (⟨p, hp, hseen, hm⟩ | hrest)
    · constructor
      · intro h
        rw [h p hp hseen] at hm
        cases hm
      · intro h
        rw [h p hp] at hm
        cases hm
    · constructor
      · intro h p hp
        by_cases hu : Unseen data size p
        · exact hrest p hp hu
        · exact h p hp hu
      · exact fun h p hp _ => h p hp

/-- A range that ends with a page. -/
theorem rangeMapped_strayPage : strayPage.rangeMapped 0x1000 0x40001800 0x800 = true ↔
    ∀ p, InRange 0x40001800 0x800 p → strayPage.isMapped 0x1000 (p * 0x1000) = true := by
  refine (rangeMapped_iff (by decide) (by decide) (by decide)).2 (Or.inr ?_)
  rintro p ⟨-, hp⟩ (hu | hu) <;> omega

/-- A range inside a page that is not mapped is accepted. -/
theorem rangeMapped_inside : strayPage.rangeMapped 0x1000 0x8000000000 16 = true ∧
    strayPage.isMapped 0x1000 0x8000000000 = false := by
  decide +kernel

end Machine

end DripOS
