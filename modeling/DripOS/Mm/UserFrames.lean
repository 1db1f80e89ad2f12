import DripOS.Mm.Probe

/-!
# Frames that a program may see

`is_mapped_in_userspace` of `src/mm/vmm.c` searches the lower half for a page that is mapped to a
physical address, with `VMM_USER` set.  `range_mapped_in_userspace` does so for the frames of a
physical range, but not for the frame in which it ends.

* `Machine.userFrame_of_isMapped` : a frame that is found is one of the program;
* `Machine.userFrame_of_range` : the same for the frames of a range.
-/

namespace DripOS

namespace Machine

variable (s : Machine)

/-- `body` holds for the table below some of the first `n` present entries. -/
def anyPresent (n : ℕ) (table : Ptr) (body : Fin 512 → Ptr → Bool) : Bool :=
  (List.range n).any fun i =>
    let off := Fin.ofNat 512 i
    decide (s.entries table off &&& vmmPresent ≠ 0) && body off (s.traversePageTable table off)

/-- `is_mapped_in_userspace`, with `base` the value of `cr3`. -/
def isMappedInUserspace (base physAddress : ℕ) : Bool :=
  s.anyPresent 256 (getHigherHalf base) fun w tableZ =>
    s.anyPresent 512 tableZ fun z tableY =>
      s.anyPresent 512 tableY fun y tableX =>
        s.anyPresent 512 tableX fun x _ =>
          let virt := vmmOffsToVirt ⟨w, z, y, x⟩
          let phys := s.virtToPhys virt base
          phys == physAddress && decide (s.entries tableX x &&& vmmUser ≠ 0)

/-- The loop of `range_mapped_in_userspace`, with `pages` pages to go. -/
def rangeMappedInUserspaceLoop (base : ℕ) : (pages curAddr : ℕ) → Bool
  | 0, _ => true
  | pages + 1, curAddr =>
    if !s.isMappedInUserspace base curAddr then false
    else rangeMappedInUserspaceLoop base pages ((curAddr + 0x1000) % 2 ^ 64)

/-- `range_mapped_in_userspace`. -/
def rangeMappedInUserspace (base data size : ℕ) : Bool :=
  s.rangeMappedInUserspaceLoop base (rangePages data size) (data &&& vmm4kPermMask)

/-- Some page is mapped to the frame, with `VMM_USER` set. -/
def UserFrame (r f : ℕ) : Prop := ∃ v fl, translate s.mem r v = some (f, fl) ∧ fl &&& vmmUser ≠ 0

variable {s : Machine} {r : ℕ}

/-! ### The search -/

theorem anyPresent_iff {n : ℕ} {table : Ptr} {body : Fin 512 → Ptr → Bool} :
    s.anyPresent n table body = true ↔ ∃ i < n, Present (s.entries table (Fin.ofNat 512 i)) ∧
      body (Fin.ofNat 512 i) (s.traversePageTable table (Fin.ofNat 512 i)) = true := by
  simp [anyPresent]

theorem pageWalk_traverse {π : List (Fin 512)} {table : Ptr} {i : Fin 512}
    (ht : pageWalk s.mem r π = some (tableFrame table)) (hlen : π.length ≤ 2)
    (hp : Present (s.entries table i)) (hh : π.length ≠ 0 → ¬ Huge (s.entries table i)) :
    pageWalk s.mem r (i :: π) = some (tableFrame (s.traversePageTable table i)) := by
  rw [pageWalk_cons i ht, tableFrame_traversePageTable]
  exact pageChild_eq_some hlen hp hh

/-- The search visits pages of the lower half. -/
theorem exists_page_of_isMapped {a : ℕ} (hr : r < 2 ^ 52) (hsmall : SmallPages s.mem r)
    (h : s.isMappedInUserspace (r * 0x1000) a = true) :
    ∃ v : PtOff, v.Low ∧ ∃ t, pageWalk s.mem r v.tables = some t ∧
      Present (s.mem t v.p1Off) ∧ s.virtToPhys (vmmOffsToVirt v) (r * 0x1000) = a ∧
      s.mem t v.p1Off &&& vmmUser ≠ 0 := by
  obtain ⟨w, hw, hpw, h⟩ := anyPresent_iff.1 h
  obtain ⟨z, -, hpz, h⟩ := anyPresent_iff.1 h
  obtain ⟨y, -, hpy, h⟩ := anyPresent_iff.1 h
  obtain ⟨x, -, hpx, h⟩ := anyPresent_iff.1 h
  simp only [Bool.and_eq_true, beq_iff_eq, decide_eq_true_iff] at h
  obtain ⟨hphys, huser⟩ := h
  have hlow : LowPath [Fin.ofNat 512 w] := by
    rw [lowPath_singleton]
    exact lt_of_le_of_lt (Nat.mod_le w 512) hw
  have hroot : pageWalk s.mem r [] = some (tableFrame (getHigherHalf (r * 0x1000))) := by
    rw [tableFrame_getHigherHalf hr]
    rfl
  have h3 := pageWalk_traverse hroot (by simp) hpw (by simp)
  have h2 := pageWalk_traverse h3 (by simp) hpz fun _ =>
    hsmall _ _ _ (List.cons_ne_nil _ _) hlow (by simp) h3 hpz
  have h1 := pageWalk_traverse h2 (by simp) hpy fun _ =>
    hsmall _ _ _ (List.cons_ne_nil _ _) (hlow.cons (List.cons_ne_nil _ _) _) (by simp) h2 hpy
  exact ⟨⟨Fin.ofNat 512 w, Fin.ofNat 512 z, Fin.ofNat 512 y, Fin.ofNat 512 x⟩,
    lowPath_singleton.1 hlow, _, h1, hpx, hphys, huser⟩

/-- **A frame that is found is mapped for the program.** -/
theorem userFrame_of_isMapped {a : ℕ} (hr : r < 2 ^ 52) (hsmall : SmallPages s.mem r)
    (ha : a % 0x1000 = 0) (h : s.isMappedInUserspace (r * 0x1000) a = true) :
    s.UserFrame r (a / 0x1000) := by
  obtain ⟨v, hv, t, ht, hp, hphys, huser⟩ := exists_page_of_isMapped hr hsmall h
  have htr := (hsmall.translate_eq_some hv).2 ⟨t, ht, hp, rfl⟩
  have hoff : vmmOffsToVirt v % 0x1000 = 0 := by
    rw [vmmOffsToVirt_eq]
    omega
  obtain ⟨t3, t2, -, -, hf3, hf2, hf1, hh⟩ := pageWalk_entries ht
  rw [virtToPhys_eq hr (vmmVirtToOffs_vmmOffsToVirt v)] at hphys
  dsimp only at hphys
  rw [hf3, hf2, hf1, if_neg hh, hoff] at hphys
  have hne : notMapped ≠ a := by
    unfold notMapped
    omega
  split_ifs at hphys
  · refine ⟨v, entryFlags (s.mem t v.p1Off), ?_, ?_⟩
    · have hframe : entryFrame (s.mem t v.p1Off) = a / 0x1000 := by omega
      rw [htr, hframe]
    · -- the flags are the lower bits of the entry
      rw [entryFlags, Nat.and_assoc]
      exact huser
  · exact absurd hphys hne
  · exact absurd hphys hne

theorem rangeMappedInUserspaceLoop_iff (base : ℕ) {n cur : ℕ} (hcur : cur < 2 ^ 64) :
    s.rangeMappedInUserspaceLoop base n cur = true ↔
      ∀ i < n, s.isMappedInUserspace base ((cur + i * 0x1000) % 2 ^ 64) = true :=
  pageLoop_iff (fun _ => rfl) (fun _ _ => rfl) hcur

/-- The frames of an accepted range, up to the one in which it ends. -/
theorem userFrame_of_range {data size : ℕ} (hr : r < 2 ^ 52) (hsmall : SmallPages s.mem r)
    (h : s.rangeMappedInUserspace (r * 0x1000) data size = true) {i : ℕ}
    (hi : i < rangePages data size) : s.UserFrame r (frameAt data i) := by
  unfold rangeMappedInUserspace at h
  have hlt := entryFrame_lt data
  rw [and_permMask, rangeMappedInUserspaceLoop_iff _ (by omega)] at h
  have hframe : (entryFrame data * 0x1000 + i * 0x1000) % 2 ^ 64 / 0x1000 = frameAt data i := by
    rw [entryFrame_eq, frameAt]
    omega
  rw [← hframe]
  exact userFrame_of_isMapped hr hsmall (by omega) (h i hi)

end Machine

end DripOS
