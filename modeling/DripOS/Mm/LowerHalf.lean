import DripOS.Mm.MapPages

/-!
# The lower half of an address space

User memory is the pages below the first 256 entries of the root table.  `vmm_fork` and
`vmm_deconstruct_address_space` visit them with four nested loops over the present entries of each
level, as if all of them were mapped by entries of 4 KiB (`SmallPages`).

* `Machine.virtToPhys_of_walk` : `virt_to_phys` finds the frame of a mapped page when its tables are
  reachable through the direct map;
* `Machine.ensures_forPresent` : the invariant rule for a loop over present entries;
* `Machine.ensures_lowPages` : the invariant rule for the four nested loops, as one loop over the
  mapped pages in order.
-/

namespace DripOS

open TableTree List PtOff Nat Option

/-- A page of the lower half. -/
def PtOff.Low (v : PtOff) : Prop := v.p4Off.val < 256

instance (v : PtOff) : Decidable v.Low := inferInstanceAs (Decidable (_ < _))

/-- A path that stays in the lower half; the empty path does. -/
def LowPath (π : List (Fin 512)) : Prop := ∀ w, [w] <:+ π → w.val < 256

theorem PtOff.low_iff {v : PtOff} : v.Low ↔ v.vpn < 2 ^ 35 := by
  simp only [Low, vpn]
  omega

theorem lowPath_nil : LowPath [] := fun _ h => by simp at h

instance (π : List (Fin 512)) : Decidable (LowPath π) :=
  decidable_of_iff (∀ w ∈ π.getLast?, w.val < 256) <| by
    refine forall_congr' fun w => imp_congr_left ?_
    rw [mem_def, List.getLast?_eq_some_iff]
    exact exists_congr fun l => eq_comm

theorem LowPath.of_suffix {π π' : List (Fin 512)} (h : LowPath π') (hs : π <:+ π') : LowPath π :=
  fun w hw => h w (hw.trans hs)

theorem LowPath.cons {π : List (Fin 512)} (h : LowPath π) (hne : π ≠ []) (i : Fin 512) :
    LowPath (i :: π) := by
  intro w hw
  rcases suffix_cons_iff.1 hw with he | hw
  · exact absurd (List.cons.inj he).2.symm hne
  · exact h w hw

theorem lowPath_singleton {w : Fin 512} : LowPath [w] ↔ w.val < 256 := by
  refine ⟨fun h => h w (suffix_refl _), fun h w' hw' => ?_⟩
  obtain rfl : w' = w := by simpa [suffix_cons_iff] using hw'
  exact h

theorem PtOff.lowPath_path {v : PtOff} : LowPath v.path ↔ v.Low := by
  refine ⟨fun h => h _ (by simp [path, suffix_cons_iff]), fun h w hw => ?_⟩
  obtain rfl : w = v.p4Off := by simpa [path, suffix_cons_iff] using hw
  exact h

namespace PtOff.Low

variable {v : PtOff} (h : v.Low)
include h

theorem first : LowPath [v.p4Off] := lowPath_singleton.2 h

theorem second : LowPath [v.p3Off, v.p4Off] := h.first.cons (by simp) _

theorem tables : LowPath v.tables := h.second.cons (by simp) _

end PtOff.Low

/-- A path that leaves the lower half is on the path of no page of it. -/
theorem not_suffix_path {π : List (Fin 512)} (h : ¬ LowPath π) {v : PtOff} (hv : v.Low)
    (i : Fin 512) : ¬ i :: π <:+ v.path :=
  fun hs => h ((lowPath_path.2 hv).of_suffix ((suffix_cons i π).trans hs))

/-- A path that leaves the lower half starts with an index from 256 on. -/
theorem first_of_not_lowPath {π : List (Fin 512)} (h : ¬ LowPath π) :
    π ≠ [] ∧ ∀ j, [j] <:+ π → 256 ≤ j.val := by
  simp only [LowPath, not_forall, not_lt] at h
  obtain ⟨w, hw, hge⟩ := h
  refine ⟨fun hnil => by simp [hnil] at hw, fun j hj => ?_⟩
  obtain ⟨l, rfl⟩ := hw
  obtain rfl : j = w := by
    obtain ⟨l', hl'⟩ := hj
    exact (append_inj' hl' rfl).2 |> fun h => (List.cons.inj h).1
  exact hge

theorem exists_first {π : List (Fin 512)} (h : π ≠ []) : ∃ w, [w] <:+ π :=
  ⟨π.getLast h, π.dropLast, dropLast_append_getLast h⟩

/-- The lower half is mapped by entries of 4 KiB only. -/
def SmallPages (mem : ℕ → Fin 512 → ℕ) (r : ℕ) : Prop :=
  ∀ π t i, π ≠ [] → LowPath π → π.length ≤ 2 → pageWalk mem r π = some t → Present (mem t i) →
    ¬ Huge (mem t i)

/-- `virt_to_phys` goes on to a table in the frame `t`. -/
def Followed (t : ℕ) : Prop := 0 < t ∧ Machine.InDirectMap t

instance (t : ℕ) : Decidable (Followed t) := inferInstanceAs (Decidable (_ ∧ _))

/-- The tables of the lower half are in the direct map, and not in frame `0`. -/
def DirectMapped (mem : ℕ → Fin 512 → ℕ) (r : ℕ) : Prop :=
  ∀ π t, π ≠ [] → LowPath π → pageWalk mem r π = some t → Followed t

/-- In a finite tree, the lower half is checked table by table. -/
theorem SmallPages.of_describes {mem : ℕ → Fin 512 → ℕ} {r : ℕ} {l : List (List (Fin 512) × ℕ)}
    (hl : Describes pageChild mem r l)
    (h : ∀ x ∈ l, x.1 ≠ [] → LowPath x.1 → x.1.length ≤ 2 → ∀ i, Present (mem x.2 i) →
      ¬ Huge (mem x.2 i)) : SmallPages mem r :=
  fun _ _ i hne hlow hlen hπ => h _ (hl.mem hπ) hne hlow hlen i

section Small

variable {mem : ℕ → Fin 512 → ℕ} {r : ℕ} {v : PtOff}

theorem SmallPages.regular (h : SmallPages mem r) (hv : v.Low) : Regular mem r v := by
  refine ⟨fun t ht hp => ?_, fun t ht hp hh => ?_⟩
  · exact h _ t _ (by simp) hv.first (by simp) ht hp
  · exact absurd hh (h _ t _ (by simp) hv.second (by simp) ht hp)

/-- The mapped pages are those with a present entry of the last level. -/
theorem SmallPages.translate_eq_some (h : SmallPages mem r) (hv : v.Low) {x : ℕ × ℕ} :
    translate mem r v = some x ↔ ∃ t, pageWalk mem r v.tables = some t ∧
      Present (mem t v.p1Off) ∧ x = (entryFrame (mem t v.p1Off), entryFlags (mem t v.p1Off)) := by
  rw [translate_eq]
  cases h1 : pageWalk mem r v.tables with
  | some t =>
    simp only [leafOf]
    split_ifs with hp
    · simp [hp, eq_comm]
    · simp [hp]
  | none =>
    refine ⟨fun hx => ?_, by rintro ⟨t, ht, _⟩; cases ht⟩
    cases h2 : pageWalk mem r [v.p3Off, v.p4Off] with
    | some t =>
      simp only [h2, hugeLeafOf] at hx
      split_ifs at hx with hp
      exact absurd hp.2 (h _ t _ (by simp) hv.second (by simp) h2 hp.1)
    | none =>
      cases h3 : pageWalk mem r [v.p4Off] with
      | some t =>
        simp only [h2, h3, bind_some, giantLeafOf] at hx
        split_ifs at hx with hp
        exact absurd hp.2 (h _ t _ (by simp) hv.first (by simp) h3 hp.1)
      | none =>
        simp only [h2, h3] at hx
        cases hx

end Small

theorem lt_getHigherHalf_iff {f : ℕ} (hf : f < 2 ^ 52) :
    getHigherHalf (f * 0x1000) > normalVmaOffset ↔ Followed f := by
  unfold Followed
  constructor
  · intro h
    have h' : 0xFFFF800000000000 < (f * 0x1000 + 0xFFFF800000000000) % 2 ^ 64 := h
    omega
  · intro h
    change normalVmaOffset < (f * 0x1000 + normalVmaOffset) % 2 ^ 64
    unfold normalVmaOffset
    omega

/-- The entries along a walk to a table of the last level. -/
theorem pageWalk_entries {mem : ℕ → Fin 512 → ℕ} {r t1 : ℕ} {v : PtOff}
    (h : pageWalk mem r v.tables = some t1) :
    ∃ t3 t2, pageWalk mem r [v.p4Off] = some t3 ∧ pageWalk mem r [v.p3Off, v.p4Off] = some t2 ∧
      entryFrame (mem r v.p4Off) = t3 ∧ entryFrame (mem t3 v.p3Off) = t2 ∧
      entryFrame (mem t2 v.p2Off) = t1 ∧ ¬ Huge (mem t2 v.p2Off) := by
  obtain ⟨t2, h2, hc2⟩ := walk_cons_eq_some.1 h
  obtain ⟨t3, h3, hc3⟩ := walk_cons_eq_some.1 h2
  obtain ⟨_, h4, hc4⟩ := walk_cons_eq_some.1 h3
  cases h4
  simp only [length_cons, length_nil, pageChild] at hc2 hc3 hc4
  split_ifs at hc2 hc3 hc4 with hp2 hp3 hp4
  exact ⟨t3, t2, h3, h2, Option.some.inj hc4, Option.some.inj hc3, Option.some.inj hc2, hp2.2⟩

/-- How a page is mapped, by an entry of 2 MiB or of 4 KiB. -/
theorem Regular.translate_cases {mem : ℕ → Fin 512 → ℕ} {r f fl : ℕ} {v : PtOff}
    (hv : Regular mem r v) (h : translate mem r v = some (f, fl)) :
    ∃ t3 t2, pageWalk mem r [v.p4Off] = some t3 ∧ pageWalk mem r [v.p3Off, v.p4Off] = some t2 ∧
      entryFrame (mem r v.p4Off) = t3 ∧ entryFrame (mem t3 v.p3Off) = t2 ∧
      ((Huge (mem t2 v.p2Off) ∧ entryFrame (mem t2 v.p2Off) % 512 = 0 ∧
          f = entryFrame (mem t2 v.p2Off) + v.p1Off.val) ∨
        (¬ Huge (mem t2 v.p2Off) ∧ ∃ t1, pageWalk mem r v.tables = some t1 ∧
          entryFrame (mem t2 v.p2Off) = t1 ∧ Present (mem t1 v.p1Off) ∧
          f = entryFrame (mem t1 v.p1Off))) := by
  by_cases h4 : Present (mem r v.p4Off)
  swap
  · rw [translate, if_pos h4] at h
    cases h
  have hw3 : pageWalk mem r [v.p4Off] = some (entryFrame (mem r v.p4Off)) := by
    rw [pageWalk_cons _ rfl, pageChild_eq_some (by simp) h4 (by simp)]
  simp only [translate] at h
  split_ifs at h with h3 hgiant h2 hhuge h1
  · exact absurd hgiant (hv.noGiant _ hw3 h3)
  · have hw2 := (pageWalk_cons v.p3Off hw3).trans (pageChild_eq_some (by simp) h3 fun _ => hgiant)
    exact ⟨_, _, hw3, hw2, rfl, rfl, Or.inl ⟨hhuge, hv.aligned _ hw2 h2 hhuge,
      (Prod.mk.inj (Option.some.inj h)).1.symm⟩⟩
  · have hw2 := (pageWalk_cons v.p3Off hw3).trans (pageChild_eq_some (by simp) h3 fun _ => hgiant)
    have hw1 := (pageWalk_cons v.p2Off hw2).trans (pageChild_eq_some (by simp) h2 fun _ => hhuge)
    exact ⟨_, _, hw3, hw2, rfl, rfl, Or.inr ⟨hhuge, _, hw1, rfl, h1,
      (Prod.mk.inj (Option.some.inj h)).1.symm⟩⟩

namespace Machine

variable {s : Machine} {r : ℕ}

theorem virtToPhys_eq {v : PtOff} {virt : ℕ} (hr : r < 2 ^ 52) (hvirt : vmmVirtToOffs virt = v) :
    s.virtToPhys virt (r * 0x1000) =
      let t3 := entryFrame (s.mem r v.p4Off)
      let t2 := entryFrame (s.mem t3 v.p3Off)
      let e2 := s.mem t2 v.p2Off
      let t1 := entryFrame e2
      let e1 := s.mem t1 v.p1Off
      if Followed t3 then
        if Huge e2 then (entryFrame e2 * 0x1000 + virt % 2 ^ 21) % 2 ^ 64
        else if Followed t2 ∧ Followed t1 ∧ Present e1 then entryFrame e1 * 0x1000 + virt % 0x1000
        else notMapped
      else notMapped := by
  have hroot : ∀ i, s.entries (getHigherHalf (r * 0x1000)) i = s.mem r i := fun i => by
    rw [entries, tableFrame_getHigherHalf hr]
  have hentry : ∀ e i, s.entries (getHigherHalf (entryFrame e * 0x1000)) i =
      s.mem (entryFrame e) i := fun e i => by
    rw [entries, tableFrame_getHigherHalf (entryFrame_lt e)]
  have hfollow : ∀ e, getHigherHalf (entryFrame e * 0x1000) > normalVmaOffset ↔
      Followed (entryFrame e) := fun e => lt_getHigherHalf_iff (entryFrame_lt e)
  have hmod : ∀ e, (entryFrame e * 0x1000 + virt % 2 ^ 12) % 2 ^ 64 =
      entryFrame e * 0x1000 + virt % 0x1000 := fun e => by
    have := entryFrame_lt e
    omega
  simp only [virtToPhys, hvirt, getEntry, traversePageTable_eq, hroot, hentry, hfollow,
    and_permMask, and_two_pow_sub_one_eq_mod virt 21, and_two_pow_sub_one_eq_mod virt 12,
    hmod, ite_and]

/-- **`virt_to_phys` finds the frame of a page of the lower half.** -/
theorem virtToPhys_of_walk {v : PtOff} {virt t : ℕ} (hr : r < 2 ^ 52) (hd : DirectMapped s.mem r)
    (hv : v.Low) (hvirt : vmmVirtToOffs virt = v)
    (ht : pageWalk s.mem r v.tables = some t) (hp : Present (s.mem t v.p1Off)) :
    s.virtToPhys virt (r * 0x1000) = entryFrame (s.mem t v.p1Off) * 0x1000 + virt % 0x1000 := by
  obtain ⟨t3, t2, h3, h2, rfl, rfl, rfl, hh⟩ := pageWalk_entries ht
  have hd3 : Followed _ := hd _ _ (by simp) hv.first h3
  have hd2 : Followed _ := hd _ _ (by simp) hv.second h2
  have hd1 : Followed _ := hd _ _ (by simp) hv.tables ht
  rw [virtToPhys_eq hr hvirt]
  rw [if_pos hd3, if_neg hh, if_pos ⟨hd2, hd1, hp⟩]

end Machine

/-! ### Handing out frames -/

/-- `n` frames from `a` on were allocated, and no other memory was written. -/
structure Reserved (s : Machine) (a n : ℕ) (s' : Machine) : Prop where
  alloc : Pmm.Allocated s.pmm n a s'.pmm
  other : ∀ f, ¬ (a ≤ f ∧ f < a + n) → s'.mem f = s.mem f

namespace Reserved

variable {s s' : Machine} {a n r : ℕ}

variable (h : Reserved s a n s')
include h

theorem not_used {f : ℕ} (h1 : a ≤ f) (h2 : f < a + n) : ¬ s.pmm.Used f :=
  h.alloc.lowest.1.2 f h1 h2

theorem lt_max {f : ℕ} (hf : f < a + n) : f < s.pmm.bitmapMaxPage := hf.trans_le h.alloc.lowest.1.1

theorem used (f : ℕ) : s'.pmm.Used f ↔ (a ≤ f ∧ f < a + n) ∨ s.pmm.Used f := h.alloc.used f

variable (hr : TreeOk s r)
include hr

/-- The frames that are handed out are no tables. -/
theorem table (t : ℕ) (ht : IsPageTable s.mem r t) : s'.mem t = s.mem t := by
  obtain ⟨π, hπ⟩ := ht
  exact h.other t fun hb => h.not_used hb.1 hb.2 (hr.used π t hπ)

theorem walk (π : List (Fin 512)) : pageWalk s'.mem r π = pageWalk s.mem r π :=
  pageWalk_congr (h.table hr) π

theorem translate (v : PtOff) : DripOS.translate s'.mem r v = DripOS.translate s.mem r v :=
  translate_congr (h.table hr) v

theorem tree : TreeOk s' r :=
  hr.congr (h.walk hr) fun t ⟨π, hπ⟩ => (h.used t).2 (Or.inr (hr.used π t hπ))

theorem small (hs : SmallPages s.mem r) : SmallPages s'.mem r := by
  intro π t i hne hlow hlen ht
  rw [h.walk hr] at ht
  rw [h.table hr t ⟨π, ht⟩]
  exact hs π t i hne hlow hlen ht

theorem regular {v : PtOff} (hv : Regular s.mem r v) : Regular s'.mem r v := hv.congr (h.table hr)

end Reserved

namespace Machine

variable {s : Machine} {r : ℕ}

/-! ### Loops over present entries -/

section Loops

variable {allow : Halt → Prop}

/-- The invariant rule for a loop over the present entries of a table. -/
theorem ensures_forPresent {n : ℕ} (hn : n ≤ 512) {table : Ptr}
    {body : Fin 512 → Ptr → Machine → Except Halt Machine} (P : ℕ → Machine → Prop) (h0 : P 0 s)
    (hskip : ∀ (i : Fin 512) s, i.val < n → P i.val s → ¬ Present (s.entries table i) →
      P (i.val + 1) s)
    (hstep : ∀ (i : Fin 512) s, i.val < n → P i.val s → Present (s.entries table i) →
      Ensures allow (body i (s.traversePageTable table i) s) (P (i.val + 1))) :
    Ensures allow (s.forPresent n table body) (P n) := by
  unfold forPresent
  refine Ensures.forRange P h0 fun i t hi ht => ?_
  have hval : (Fin.ofNat 512 i).val = i := mod_eq_of_lt (by omega)
  dsimp only
  split_ifs with hp
  · have := hstep (Fin.ofNat 512 i) t (by omega) (by rw [hval]; exact ht) hp
    rwa [hval] at this
  · have := hskip (Fin.ofNat 512 i) t (by omega) (by rw [hval]; exact ht) hp
    rwa [hval] at this

/-! ### The order of the pages -/

/-- The number that the indices of a path stand for. -/
def pathNum : List (Fin 512) → ℕ
  | [] => 0
  | i :: π => pathNum π * 512 + i

theorem pathNum_path (v : PtOff) : pathNum v.path = v.vpn := by
  simp [path, pathNum, vpn]

theorem pathNum_append (σ π : List (Fin 512)) :
    pathNum (σ ++ π) = pathNum π * 512 ^ σ.length + pathNum σ := by
  induction σ with
  | nil => simp [pathNum]
  | cons i σ ih =>
    rw [cons_append, pathNum, ih, pathNum, length_cons, pow_succ]
    ring

theorem pathNum_lt (π : List (Fin 512)) : pathNum π < 512 ^ π.length := by
  induction π with
  | nil => decide
  | cons i π ih =>
    rw [pathNum, length_cons, pow_succ]
    omega

theorem pathNum_inj {π π' : List (Fin 512)} (hlen : π.length = π'.length)
    (h : pathNum π = pathNum π') : π = π' := by
  induction π generalizing π' with
  | nil => exact (length_eq_zero_iff.1 hlen.symm).symm
  | cons i π ih =>
    cases π' with
    | nil => cases hlen
    | cons j π' =>
      simp only [pathNum] at h
      obtain rfl : i = j := Fin.ext (by omega)
      rw [ih (Nat.succ.inj hlen) (by omega)]

/-- The pages below the table with path `π` are those whose numbers begin with that of `π`. -/
theorem suffix_path_of_range {v : PtOff} {π : List (Fin 512)} (hlen : π.length ≤ 4)
    (h1 : pathNum π * 512 ^ (4 - π.length) ≤ v.vpn)
    (h2 : v.vpn < (pathNum π + 1) * 512 ^ (4 - π.length)) : π <:+ v.path := by
  have hpath : v.path.length = 4 := rfl
  have htake : (v.path.take (4 - π.length)).length = 4 - π.length := by
    rw [length_take, hpath]
    omega
  have hdrop : (v.path.drop (4 - π.length)).length = π.length := by
    rw [length_drop, hpath]
    omega
  have hnum : v.vpn / 512 ^ (4 - π.length) = pathNum (v.path.drop (4 - π.length)) := by
    have hlt := pathNum_lt (v.path.take (4 - π.length))
    rw [htake] at hlt
    rw [← pathNum_path, ← take_append_drop (4 - π.length) v.path, pathNum_append,
      take_append_drop, htake, Nat.mul_comm, mul_add_div (Nat.pow_pos (by decide)),
      div_eq_of_lt hlt, Nat.add_zero]
  have heq : pathNum π = pathNum (v.path.drop (4 - π.length)) := by
    rw [← hnum]
    exact (Nat.div_eq_of_lt_le h1 h2).symm
  rw [pathNum_inj hdrop.symm heq]
  exact drop_suffix _ _

/-! ### The four loops -/

/-- What the loops over the tables `mem` need of their invariant: `J k` holds after the pages below
`k`.  The tables do not change, and pages that are not mapped may be skipped. -/
structure PageLoop (mem : ℕ → Fin 512 → ℕ) (r : ℕ) (J : ℕ → Machine → Prop) : Prop where
  small : SmallPages mem r
  kept : ∀ k s, J k s → ∀ π t, LowPath π → pageWalk mem r π = some t → s.mem t = mem t
  skip : ∀ k k' s, k ≤ k' →
    (∀ v : PtOff, v.Low → k ≤ v.vpn → v.vpn < k' → translate mem r v = none) → J k s → J k' s

namespace PageLoop

variable {mem : ℕ → Fin 512 → ℕ} {J : ℕ → Machine → Prop} {π : List (Fin 512)} {t k : ℕ}
  {table : Ptr} {body : Fin 512 → Ptr → Machine → Except Halt Machine} (h : PageLoop mem r J)
  (hlow : LowPath π) (ht : pageWalk mem r π = some t) (htab : tableFrame table = t)
include h hlow ht htab

/-- Reading an entry of a table, in any state of the loop. -/
theorem entries_eq (hJ : J k s) (i : Fin 512) : s.entries table i = mem t i := by
  rw [entries, htab, h.kept k s hJ π t hlow ht]

theorem walk_below (hJ : J k s) (hlen : π.length ≤ 2) {i : Fin 512} (hp : Present (mem t i)) :
    pageWalk mem r (i :: π) = some (tableFrame (s.traversePageTable table i)) := by
  rw [tableFrame_traversePageTable, h.entries_eq hlow ht htab hJ, pageWalk_cons i ht,
    pageChild_eq_some hlen hp]
  exact fun hne => h.small π t i (fun h => hne (by rw [h]; rfl)) hlow hlen ht hp

/-- **One loop**: the pages below the first `n` entries of the table with path `π`. -/
theorem ensures_table {n : ℕ} (hn : n ≤ 512) (hlen : π.length ≤ 3)
    (h0 : J (pathNum π * 512 ^ (4 - π.length)) s)
    (hbody : ∀ (i : Fin 512) s, i.val < n → J (pathNum (i :: π) * 512 ^ (3 - π.length)) s →
      Present (mem t i) →
      Ensures allow (body i (s.traversePageTable table i) s)
        (J ((pathNum (i :: π) + 1) * 512 ^ (3 - π.length)))) :
    Ensures allow (s.forPresent n table body)
      (J ((pathNum π * 512 + n) * 512 ^ (3 - π.length))) := by
  have hpow : 512 ^ (4 - π.length) = 512 * 512 ^ (3 - π.length) := by
    rw [← pow_succ', show 4 - π.length = 3 - π.length + 1 by omega]
  rw [hpow, ← Nat.mul_assoc] at h0
  refine ensures_forPresent hn (fun k => J ((pathNum π * 512 + k) * 512 ^ (3 - π.length)))
    (by rwa [Nat.add_zero]) (fun i s _ hJ hp => ?_) fun i s hi hJ hp => ?_
  · -- the pages below an absent entry are not mapped
    rw [h.entries_eq hlow ht htab hJ] at hp
    refine h.skip _ _ s (Nat.mul_le_mul_right _ (by omega)) (fun v _ h1 h2 => ?_) hJ
    have hsuf : i :: π <:+ v.path := by
      have hlen' : 4 - (i :: π).length = 3 - π.length := by
        rw [length_cons]
        omega
      refine suffix_path_of_range (succ_le_succ hlen) ?_ ?_
      · rwa [hlen', pathNum]
      · rwa [hlen', pathNum, Nat.add_assoc]
    exact translate_eq_none hsuf ht hp
  · rw [h.entries_eq hlow ht htab hJ] at hp
    have hstep := hbody i s hi hJ hp
    rwa [pathNum, Nat.add_assoc] at hstep

theorem ensures_fullTable (hlen : π.length ≤ 3)
    (h0 : J (pathNum π * 512 ^ (4 - π.length)) s)
    (hbody : ∀ (i : Fin 512) s, J (pathNum (i :: π) * 512 ^ (3 - π.length)) s →
      Present (mem t i) →
      Ensures allow (body i (s.traversePageTable table i) s)
        (J ((pathNum (i :: π) + 1) * 512 ^ (3 - π.length)))) :
    Ensures allow (s.forPresent 512 table body) (J ((pathNum π + 1) * 512 ^ (4 - π.length))) := by
  have hend : (pathNum π + 1) * 512 ^ (4 - π.length) =
      (pathNum π * 512 + 512) * 512 ^ (3 - π.length) := by
    rw [show 4 - π.length = 3 - π.length + 1 by omega, pow_succ]
    ring
  rw [hend]
  exact h.ensures_table hlow ht htab le_rfl hlen h0 fun i s _ => hbody i s

end PageLoop

/-- **The invariant rule for the four nested loops**: `J k` holds after the pages below `k`. -/
theorem ensures_lowPages {mem : ℕ → Fin 512 → ℕ} (hr : r < 2 ^ 52) {J : ℕ → Machine → Prop}
    (h : PageLoop mem r J) (body : Ptr → PtOff → Machine → Except Halt Machine) (h0 : J 0 s)
    (hstep : ∀ (v : PtOff) t tableX s, v.Low →
      pageWalk mem r v.tables = some t → tableFrame tableX = t →
      Present (mem t v.p1Off) → J v.vpn s →
      Ensures allow (body tableX v s) (J (v.vpn + 1))) :
    Ensures allow
      (s.forPresent 256 (getHigherHalf (r * 0x1000)) fun w tableZ s =>
        s.forPresent 512 tableZ fun z tableY s =>
          s.forPresent 512 tableY fun y tableX s =>
            s.forPresent 512 tableX fun x _ s => body tableX ⟨w, z, y, x⟩ s) (J (2 ^ 35)) := by
  have hroot : pageWalk mem r [] = some r := rfl
  have hframe := tableFrame_getHigherHalf hr
  refine (h.ensures_table lowPath_nil hroot hframe (by decide) (by simp)
    (show J (0 * 512 ^ 4) s by rwa [Nat.zero_mul]) fun w s hw hJ hp => ?_).mono fun s' h' => ?_
  swap
  · have hend : (pathNum [] * 512 + 256) * 512 ^ (3 - ([] : List (Fin 512)).length) = 2 ^ 35 := by
      norm_num [pathNum]
    rwa [hend] at h'
  have hlow1 : LowPath [w] := lowPath_singleton.2 hw
  have hz := h.walk_below lowPath_nil hroot hframe hJ (by simp) hp
  refine h.ensures_fullTable hlow1 hz rfl (by simp) hJ fun z s hJ hp => ?_
  have hlow2 := hlow1.cons (by simp) z
  have hy := h.walk_below hlow1 hz rfl hJ (by simp) hp
  refine h.ensures_fullTable hlow2 hy rfl (by simp) hJ fun y s hJ hp => ?_
  have hlow3 := hlow2.cons (by simp) y
  have hx := h.walk_below hlow2 hy rfl hJ (by simp) hp
  refine h.ensures_fullTable hlow3 hx rfl (by simp) hJ fun x s hJ hp => ?_
  have hvpn : pathNum [x, y, z, w] = (PtOff.mk w z y x).vpn := pathNum_path ⟨w, z, y, x⟩
  have hone : 512 ^ (3 - [y, z, w].length) = 1 := rfl
  rw [hone, Nat.mul_one, hvpn] at hJ ⊢
  exact hstep ⟨w, z, y, x⟩ _ _ s hw hx rfl hp hJ

end Loops

end Machine

end DripOS
