import DripOS.Fs.Echfs.File

/-!
# Looking up paths

The search of the main directory stops at the first entry that matches or is unused, wherever that
is on the device (`Echfs.findEntryNameParent_ok`).  It and the walk along a path depend on the
directory entries on the device only (`Echfs.resolveUncached_congr`).
-/

namespace DripOS

namespace Echfs

variable {fs fs' : Echfs} {name : List UInt8} {parentId i fuel j t : ℕ}

/-- The entry has the parent and the name that the search looks for. -/
def Matches (fs : Echfs) (name : List UInt8) (parentId i : ℕ) : Prop :=
  (fs.readDirEntry i).parentId = parentId ∧ strEq name (fs.readDirEntry i).name = true

instance : Decidable (fs.Matches name parentId i) := inferInstanceAs (Decidable (_ ∧ _))

/-- The search goes on behind this entry. -/
def Passes (fs : Echfs) (name : List UInt8) (parentId i : ℕ) : Prop :=
  ¬ fs.Matches name parentId i ∧ (fs.readDirEntry i).parentId ≠ 0

instance : Decidable (fs.Passes name parentId i) := inferInstanceAs (Decidable (_ ∧ _))

theorem findEntryLoop_succ (fuel : ℕ) :
    fs.findEntryLoop name parentId (fuel + 1) i =
      if fs.Matches name parentId i then .ok i
      else if (fs.readDirEntry i).parentId = 0 then .ok echfsSearchFail
      else fs.findEntryLoop name parentId fuel ((i + 1) % 2 ^ 64) := rfl

/-- The entry at which the search stops. -/
theorem findEntryLoop_ok (hi : i + fuel ≤ 2 ^ 64)
    (h : fs.findEntryLoop name parentId fuel i = .ok j) :
    ∃ t, i ≤ t ∧ t < i + fuel ∧ (∀ k, i ≤ k → k < t → fs.Passes name parentId k) ∧
      (fs.Matches name parentId t ∧ j = t ∨
        ¬ fs.Matches name parentId t ∧ (fs.readDirEntry t).parentId = 0 ∧ j = echfsSearchFail) := by
  induction fuel generalizing i with
  | zero => cases h
  | succ fuel ih =>
    rw [findEntryLoop_succ] at h
    split_ifs at h with hm hz
    · have hj := Except.ok.inj h
      exact ⟨i, le_rfl, by omega, fun k h1 h2 => by omega, Or.inl ⟨hm, hj.symm⟩⟩
    · have hj := Except.ok.inj h
      exact ⟨i, le_rfl, by omega, fun k h1 h2 => by omega, Or.inr ⟨hm, hz, hj.symm⟩⟩
    · -- the number of the entry does not wrap within the fuel
      cases fuel with
      | zero => cases h
      | succ fuel =>
        rw [Nat.mod_eq_of_lt (by omega)] at h
        obtain ⟨t, ht, htf, hpass, hstop⟩ := ih (by omega) h
        refine ⟨t, by omega, by omega, fun k h1 h2 => ?_, hstop⟩
        rcases Nat.eq_or_lt_of_le h1 with rfl | hlt
        · exact ⟨hm, hz⟩
        · exact hpass k hlt h2

/-- The search passes over entries. -/
theorem findEntryLoop_pass (hit : i ≤ t) (htf : t < i + fuel) (hi : i + fuel ≤ 2 ^ 64)
    (hpass : ∀ k, i ≤ k → k < t → fs.Passes name parentId k) :
    fs.findEntryLoop name parentId fuel i = fs.findEntryLoop name parentId (fuel - (t - i)) t := by
  induction fuel generalizing i with
  | zero => omega
  | succ fuel ih =>
    rcases Nat.eq_or_lt_of_le hit with rfl | hlt
    · rw [Nat.sub_self, Nat.sub_zero]
    · obtain ⟨hm, hz⟩ := hpass i le_rfl hlt
      rw [findEntryLoop_succ, if_neg hm, if_neg hz, Nat.mod_eq_of_lt (by omega),
        ih (by omega) (by omega) (by omega) fun k h1 h2 => hpass k (by omega) h2]
      congr 1
      omega

/-- **Where the search stops**, if it returns. -/
theorem findEntryNameParent_ok (h : fs.findEntryNameParent name parentId = .ok j) :
    ∃ t < 2 ^ 64, (∀ k < t, fs.Passes name parentId k) ∧
      (fs.Matches name parentId t ∧ j = t ∨
        ¬ fs.Matches name parentId t ∧ (fs.readDirEntry t).parentId = 0 ∧ j = echfsSearchFail) := by
  obtain ⟨t, -, htf, hpass, hstop⟩ := findEntryLoop_ok (by omega) h
  exact ⟨t, by omega, fun k hk => hpass k (Nat.zero_le k) hk, hstop⟩

/-- The search returns the first match in front of the first unused entry. -/
theorem findEntryNameParent_of_matches (ht : t < 2 ^ 64)
    (hpass : ∀ k < t, fs.Passes name parentId k) (hm : fs.Matches name parentId t) :
    fs.findEntryNameParent name parentId = .ok t := by
  rw [findEntryNameParent, findEntryLoop_pass (Nat.zero_le t) (by omega) (by omega)
    fun k _ hk => hpass k hk]
  obtain ⟨fuel, hfuel⟩ : ∃ fuel, 2 ^ 64 - (t - 0) = fuel + 1 := ⟨2 ^ 64 - (t - 0) - 1, by omega⟩
  rw [hfuel, findEntryLoop_succ, if_pos hm]

/-- Entry numbers that differ by a multiple of `2 ^ 56` stand for the same bytes. -/
theorem readDirEntry_add (k : ℕ) : fs.readDirEntry (k + 2 ^ 56) = fs.readDirEntry k := by
  have hoff : fs.entryOffset (k + 2 ^ 56) = fs.entryOffset k := by
    unfold entryOffset sizeofDirEntry
    omega
  rw [readDirEntry, hoff, readDirEntry]

/-- The search finds no entry numbers from `2 ^ 56` on. -/
theorem lt_of_findEntryNameParent (h : fs.findEntryNameParent name parentId = .ok j)
    (hj : j ≠ echfsSearchFail) : j < 2 ^ 56 ∧ fs.Matches name parentId j ∧
      ∀ k < j, fs.Passes name parentId k := by
  obtain ⟨t, -, hpass, ⟨hm, rfl⟩ | ⟨-, -, hfail⟩⟩ := findEntryNameParent_ok h
  · refine ⟨?_, hm, hpass⟩
    by_contra hge
    -- the same bytes were seen before
    obtain ⟨k, rfl⟩ := Nat.exists_eq_add_of_le (Nat.not_lt.1 hge)
    refine (hpass k (by omega)).1 ?_
    unfold Matches at hm ⊢
    rwa [Nat.add_comm, readDirEntry_add] at hm
  · exact absurd hfail hj

/-! ### What lookups depend on -/

theorem readDirEntry_congr (hdisk : fs'.disk = fs.disk)
    (hblock : fs'.mainDirBlock = fs.mainDirBlock)
    (hsize : fs'.blockSize = fs.blockSize) (k : ℕ) :
    fs'.readDirEntry k = fs.readDirEntry k := by
  unfold readDirEntry entryOffset
  rw [hdisk, hblock, hsize]

section

variable (h : ∀ k, fs'.readDirEntry k = fs.readDirEntry k)
include h

theorem findEntryLoop_congr (fuel i : ℕ) :
    fs'.findEntryLoop name parentId fuel i = fs.findEntryLoop name parentId fuel i := by
  induction fuel generalizing i with
  | zero => rfl
  | succ fuel ih =>
    unfold findEntryLoop
    rw [h i, ih]

theorem resolveLoop_congr (fuel : ℕ) (path : List UInt8) (p : ℕ) :
    fs'.resolveLoop fuel path p = fs.resolveLoop fuel path p := by
  induction fuel generalizing path p with
  | zero => rfl
  | succ fuel ih =>
    unfold resolveLoop findEntryNameParent
    simp only [findEntryLoop_congr h, h, ih]

/-- **A lookup depends on the directory entries on the device only.** -/
theorem resolveUncached_congr (path : List UInt8) :
    fs'.resolveUncached path = fs.resolveUncached path := by
  unfold resolveUncached
  simp only [resolveLoop_congr h]

end

section

variable {Q : ℕ → Prop} {p : ℕ} {path : List UInt8} {e : DirEntry} {c : ℕ}
  (hdir : ∀ name q i, Q q → fs.findEntryNameParent name q = .ok i → i ≠ echfsSearchFail →
    (fs.readDirEntry i).entryType = echfsTypeDir → Q (fs.readDirEntry i).startingBlock)
include hdir

/-- The walk returns an entry that the search found, with its number; `Q` holds of the directories
on the way. -/
theorem resolveLoop_some (hp : Q p) (h : fs.resolveLoop fuel path p = .ok ⟨some e, c⟩) :
    ∃ name q i, Q q ∧ fs.findEntryNameParent name q = .ok i ∧ i ≠ echfsSearchFail ∧
      e = ⟨(fs.readDirEntry i).raw, i⟩ ∧ c = 0 := by
  induction fuel generalizing path p with
  | zero => cases h
  | succ fuel ih =>
    obtain ⟨elem, -, h⟩ := bind_eq_ok.1 h
    cases elem with
    | tooLong => cases h
    | elem name isLast rest =>
      cases isLast with
      | true =>
        obtain ⟨i, hi, h⟩ := bind_eq_ok.1 h
        split_ifs at h with hfail
        · cases h
        · cases h
          exact ⟨name, p, i, hp, hi, hfail, rfl, rfl⟩
      | false =>
        obtain ⟨i, hi, h⟩ := bind_eq_ok.1 h
        dsimp only at h
        split_ifs at h with hfail htype
        · cases h
        · cases h
        · exact ih (hdir name p i hp hi hfail (not_not.1 htype)) h

theorem resolveUncached_some (hroot : Q echfsRootDirId)
    (h : fs.resolveUncached path = .ok ⟨some e, c⟩) :
    ∃ name q i, Q q ∧ fs.findEntryNameParent name q = .ok i ∧ i ≠ echfsSearchFail ∧
      e = ⟨(fs.readDirEntry i).raw, i⟩ ∧ c = 0 := by
  unfold resolveUncached at h
  generalize (if path.head? = some slash then path.tail else path) = filename at h
  dsimp only at h
  split_ifs at h
  · cases h
  · exact resolveLoop_some hdir hroot h

end

end Echfs

end DripOS
