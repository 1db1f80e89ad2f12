import DripOS.Fs.Echfs.Path
import DripOS.Fs.Echfs.Table

/-!
# The entry that a path leads to

The main directory ends with the first entry with the parent 0.  `Echfs.refWalk` is the walk along a
path in plain terms: take the lowest-numbered entry in use with the parent and the name, which has
to be a directory if the path goes on.  The driver compares the end of the directory too before it
stops there, so the two agree in directories whose id is not 0.

* `Echfs.findEntryNameParent_eq` : the search of the driver is the one of the walk;
* `Echfs.pathResolve_eq_refWalk` : **`echfs_path_resolve` returns the entry that the walk reaches**,
  and the error of a failed search exactly when the walk fails;
* `Echfs.findEntryNameParent_bounded_iff` : what the search reads.
-/

namespace DripOS

open List

namespace Echfs

variable {fs : Echfs} {n m id : ℕ} {dirs : List (List UInt8)} {name : List UInt8}

/-- The first `n` entries are in use, and the next one is the end. -/
structure MainDir (fs : Echfs) (n : ℕ) : Prop where
  used : ∀ k < n, (fs.readDirEntry k).parentId ≠ 0
  ended : (fs.readDirEntry n).parentId = 0

/-- The lowest of the first `m` entries with this parent and name. -/
def refFind (fs : Echfs) (m : ℕ) (name : List UInt8) (parentId : ℕ) : Option ℕ :=
  (List.range m).find? fun k => decide (fs.Matches name parentId k)

/-- The entry among the first `m` that is reached along the directories `dirs`, for the last
name. -/
def refWalk (fs : Echfs) (m : ℕ) : (dirs : List (List UInt8)) → (name : List UInt8) →
    (parentId : ℕ) → Option ℕ
  | [], name, parentId => fs.refFind m name parentId
  | dir :: dirs, name, parentId =>
    match fs.refFind m dir parentId with
    | none => none
    | some k =>
      if (fs.readDirEntry k).entryType = echfsTypeDir then
        fs.refWalk m dirs name (fs.readDirEntry k).startingBlock
      else none

/-- The entry with its number, or the error of a failed search. -/
def resolvedOf (fs : Echfs) : Option ℕ → Resolved
  | none => ⟨none, 1 <<< 2⟩
  | some k => ⟨some { fs.readDirEntry k with entryNumber := k }, 0⟩

/-! ### The search -/

theorem refFind_eq_some {k : ℕ} : fs.refFind m name id = some k ↔
    k < m ∧ fs.Matches name id k ∧ ∀ j < k, ¬ fs.Matches name id j := by
  unfold refFind
  simp [and_left_comm]

theorem refFind_eq_none : fs.refFind m name id = none ↔ ∀ k < m, ¬ fs.Matches name id k := by
  unfold refFind
  simp

/-- A search that comes to the end of the directory fails. -/
theorem findEntryNameParent_of_end (hn : n < 2 ^ 64)
    (hpass : ∀ k < n, fs.Passes name id k) (hm : ¬ fs.Matches name id n)
    (hend : (fs.readDirEntry n).parentId = 0) :
    fs.findEntryNameParent name id = .ok echfsSearchFail := by
  rw [findEntryNameParent, findEntryLoop_pass (Nat.zero_le n) (by omega) (by omega)
    fun k _ hk => hpass k hk]
  obtain ⟨fuel, hfuel⟩ : ∃ fuel, 2 ^ 64 - (n - 0) = fuel + 1 := ⟨2 ^ 64 - (n - 0) - 1, by omega⟩
  rw [hfuel, findEntryLoop_succ, if_neg hm, if_pos hend]

namespace MainDir

/-- Entry numbers from `2 ^ 56` on stand for earlier entries. -/
theorem lt (h : fs.MainDir n) : n < 2 ^ 56 := by
  by_contra hge
  obtain ⟨k, rfl⟩ := Nat.exists_eq_add_of_le (Nat.not_lt.1 hge)
  have hend := h.ended
  rw [Nat.add_comm, readDirEntry_add] at hend
  exact h.used k (by omega) hend

/-- The search passes the entries in front of the first match. -/
theorem passes (h : fs.MainDir n) {k : ℕ} (hk : k ≤ n) (hno : ∀ j < k, ¬ fs.Matches name id j) :
    ∀ j < k, fs.Passes name id j :=
  fun j hj => ⟨hno j hj, h.used j (hj.trans_le hk)⟩

end MainDir

/-- **The search in a directory finds the lowest-numbered entry.** -/
theorem findEntryNameParent_eq (h : fs.MainDir n) (name : List UInt8) (hid : id ≠ 0) :
    fs.findEntryNameParent name id = .ok ((fs.refFind n name id).getD echfsSearchFail) := by
  have hlt := h.lt
  cases hfind : fs.refFind n name id with
  | none =>
    -- the end of the directory is compared too, but its parent is 0
    exact findEntryNameParent_of_end (by omega) (h.passes le_rfl (refFind_eq_none.1 hfind))
      (fun hm => hid (hm.1.symm.trans h.ended)) h.ended
  | some k =>
    obtain ⟨hk, hm, hno⟩ := refFind_eq_some.1 hfind
    have hk' : k < 2 ^ 64 := by omega
    exact findEntryNameParent_of_matches hk' (h.passes hk.le hno) hm

theorem searchElem_eq (h : fs.MainDir n) (hname : name.length ≤ 200) (hid : id ≠ 0) :
    fs.searchElem name id = .ok (fs.refFind n name id) := by
  have hlt := h.lt
  rw [searchElem, if_pos hname, findEntryNameParent_eq h name hid, ok_bind]
  cases hfind : fs.refFind n name id with
  | none => rw [Option.getD_none, if_pos rfl]; rfl
  | some k =>
    have hk := (refFind_eq_some.1 hfind).1
    have hne : k ≠ echfsSearchFail := by
      unfold echfsSearchFail
      omega
    rw [Option.getD_some, if_neg hne]
    rfl

/-! ### The walk -/

/-- No directory in use has the id 0. -/
def DirsNonzero (fs : Echfs) (n : ℕ) : Prop :=
  ∀ k < n, (fs.readDirEntry k).entryType = echfsTypeDir → (fs.readDirEntry k).startingBlock ≠ 0

instance : Decidable (fs.DirsNonzero n) := Nat.decidableBallLT _ _

/-- The walk of the driver is the one in plain terms. -/
theorem lookupPath_eq (h : fs.MainDir n) (hids : fs.DirsNonzero n)
    (hdirs : ∀ dir ∈ dirs, dir.length ≤ 200) (hname : name.length ≤ 200) (hid : id ≠ 0) :
    fs.lookupPath dirs name id = .ok (fs.resolvedOf (fs.refWalk n dirs name id)) := by
  induction dirs generalizing id with
  | nil =>
    rw [lookupPath, walk, ok_bind, refWalk]
    dsimp only
    rw [lastElem, searchElem_eq h hname hid, ok_bind]
    cases fs.refFind n name id with
    | none => rfl
    | some k => rfl
  | cons dir dirs ih =>
    rw [lookupPath, walk, searchElem_eq h (hdirs dir mem_cons_self) hid, ok_bind, refWalk]
    cases hfind : fs.refFind n dir id with
    | none => rfl
    | some k =>
      dsimp only
      by_cases htype : (fs.readDirEntry k).entryType = echfsTypeDir
      · rw [if_neg (not_not.2 htype), if_pos htype]
        exact ih (fun d hd => hdirs d (mem_cons_of_mem dir hd))
          (hids k (refFind_eq_some.1 hfind).1 htype)
      · rw [if_pos htype, if_neg htype]
        rfl

/-- A name of a path. -/
structure IsElem (elem : List UInt8) : Prop where
  pos : 1 ≤ elem.length
  le : elem.length ≤ 200
  noSlash : slash ∉ elem

/-- A path of names does not begin with a `/`. -/
theorem head?_joinPath (hdirs : ∀ dir ∈ dirs, IsElem dir) (hname : IsElem name) :
    (joinPath dirs name).head? ≠ some slash := by
  have helem : ∀ {elem : List UInt8} (rest : List UInt8), IsElem elem →
      (elem ++ rest).head? ≠ some slash := fun {elem} rest he hhead => by
    cases elem with
    | nil => exact absurd he.pos (by decide)
    | cons c elem => exact he.noSlash (Option.some.inj hhead ▸ mem_cons_self)
  cases dirs with
  | nil =>
    have h := helem [] hname
    rwa [append_nil] at h
  | cons dir dirs => exact helem _ (hdirs dir mem_cons_self)

/-- A leading `/` makes no difference. -/
theorem resolveUncached_relative (hdirs : ∀ dir ∈ dirs, IsElem dir) (hname : IsElem name)
    {path : List UInt8} (hpath : path = joinPath dirs name ∨ path = slash :: joinPath dirs name) :
    fs.resolveUncached path = fs.lookupPath dirs name echfsRootDirId := by
  have hhead := head?_joinPath hdirs hname
  have hne : joinPath dirs name ≠ [slash] := fun h => hhead (by rw [h]; rfl)
  have habs : fs.resolveUncached (slash :: joinPath dirs name) =
      fs.lookupPath dirs name echfsRootDirId :=
    resolveUncached_joinPath (fun d hd => (hdirs d hd).noSlash) hname.noSlash hne
  rcases hpath with rfl | rfl
  · rw [← habs, resolveUncached, resolveUncached, if_neg hhead, List.head?_cons, if_pos rfl,
      tail_cons]
  · exact habs

/-- **`echfs_path_resolve` is the walk along the path** over the entries in use. -/
theorem pathResolve_eq_refWalk (h : fs.MainDir n) (hids : fs.DirsNonzero n)
    (hdirs : ∀ dir ∈ dirs, IsElem dir) (hname : IsElem name) {path : List UInt8}
    (hpath : path = joinPath dirs name ∨ path = slash :: joinPath dirs name) :
    ∃ res, fs.pathResolve path 0 = .ok (res, fs) ∧
      (∀ k, fs.refWalk n dirs name echfsRootDirId = some k →
        res.entry = some ⟨(fs.readDirEntry k).raw, k⟩ ∧ res.errCode = 0) ∧
      (fs.refWalk n dirs name echfsRootDirId = none ↔
        res.entry = none ∧ res.errCode.testBit 2 = true) := by
  refine ⟨fs.resolvedOf (fs.refWalk n dirs name echfsRootDirId), ?_, ?_, ?_⟩
  · rw [pathResolve, if_neg (not_not.2 rfl), resolveUncached_relative hdirs hname hpath,
      lookupPath_eq h hids (fun d hd => (hdirs d hd).le) hname.le (by decide)]
    rfl
  · intro k hk
    rw [hk]
    exact ⟨rfl, rfl⟩
  · cases fs.refWalk n dirs name echfsRootDirId with
    | none => exact iff_of_true rfl ⟨rfl, show Nat.testBit 4 2 = true by decide⟩
    | some k => exact iff_of_false (by simp) (by simp [resolvedOf])

/-- A directory `d` of id 5 with two files `f`. -/
def nestedFiles : Echfs := smallVolume (smallDisk (fun b => if b < 23 then echfsEndOfChain else 0)
  fun k => if k = 0 then entryBytes echfsRootDirId 1 5 0 [0x64]
    else if k = 1 then entryBytes 5 0 22 0 [0x66]
    else if k = 2 then entryBytes 5 0 21 0 [0x66] else fun _ => 0)

theorem mainDir_nestedFiles : nestedFiles.MainDir 3 := ⟨by decide +kernel, by decide +kernel⟩

/-- The path `/d/f` leads to the first of the two files, and the path `f` nowhere. -/
theorem pathResolve_nestedFiles :
    nestedFiles.MainDir 3 ∧ nestedFiles.DirsNonzero 3 ∧
    (∃ res, nestedFiles.pathResolve [slash, 0x64, slash, 0x66] 0 = .ok (res, nestedFiles) ∧
      res.entry = some ⟨(nestedFiles.readDirEntry 1).raw, 1⟩ ∧ res.errCode = 0) ∧
    (∃ res, nestedFiles.pathResolve [0x66] 0 = .ok (res, nestedFiles) ∧
      res.entry = none ∧ res.errCode.testBit 2 = true) := by
  have hd : IsElem [0x64] := ⟨by decide, by decide, by decide⟩
  have hf : IsElem [0x66] := ⟨by decide, by decide, by decide⟩
  have hids : nestedFiles.DirsNonzero 3 := by decide +kernel
  obtain ⟨res, hres, hsome, -⟩ := pathResolve_eq_refWalk mainDir_nestedFiles hids
    (forall_mem_singleton.2 hd) hf (.inr rfl)
  obtain ⟨res', hres', -, hnone⟩ := pathResolve_eq_refWalk mainDir_nestedFiles hids
    (forall_mem_nil IsElem) hf (.inl rfl)
  exact ⟨mainDir_nestedFiles, hids, ⟨res, hres, hsome 1 (by decide +kernel)⟩,
    res', hres', hnone.1 (by decide +kernel)⟩

/-- A directory `d` of id 0, followed by an unused entry that still has the name `f`. -/
def staleName : Echfs := smallVolume (smallDisk (fun b => if b < 23 then echfsEndOfChain else 0)
  fun k => if k = 0 then entryBytes echfsRootDirId 1 0 0 [0x64]
    else if k = 1 then entryBytes 0 0 22 0 [0x66] else fun _ => 0)

/-- The path `/d/f` leads to no entry in use, but the unused entry is returned. -/
theorem pathResolve_staleName :
    staleName.MainDir 1 ∧ staleName.refWalk 1 [[0x64]] [0x66] echfsRootDirId = none ∧
    ∃ res, staleName.pathResolve [slash, 0x64, slash, 0x66] 0 = .ok (res, staleName) ∧
      res.entry = some ⟨(staleName.readDirEntry 1).raw, 1⟩ := by
  have hmain : staleName.MainDir 1 := ⟨by decide +kernel, by decide +kernel⟩
  have hd : staleName.searchElem [0x64] echfsRootDirId = .ok (some 0) := by
    rw [searchElem, findEntryNameParent_of_matches (t := 0) (by decide) (by omega)
      (by decide +kernel)]
    rfl
  have hf : staleName.searchElem [0x66] 0 = .ok (some 1) := by
    rw [searchElem, findEntryNameParent_of_matches (t := 1) (by decide) (by decide +kernel)
      (by decide +kernel)]
    rfl
  have hdir : (staleName.readDirEntry 0).entryType = echfsTypeDir ∧
      (staleName.readDirEntry 0).startingBlock = 0 := by decide +kernel
  have hpath : [slash, 0x64, slash, 0x66] = slash :: joinPath [[0x64]] [0x66] := rfl
  refine ⟨hmain, by decide +kernel, ⟨some ⟨(staleName.readDirEntry 1).raw, 1⟩, 0⟩, ?_, rfl⟩
  rw [pathResolve, if_neg (not_not.2 rfl), resolveUncached_relative
    (forall_mem_singleton.2 ⟨by decide, by decide, by decide⟩) ⟨by decide, by decide, by decide⟩
    (.inr hpath)]
  simp only [lookupPath, walk, lastElem, hd, ok_bind]
  rw [if_neg (not_not.2 hdir.1), hdir.2, ok_bind]
  dsimp only
  rw [hf]
  rfl

/-! ### The bound of the search -/

/-- The entries that `echfs_find_entry_name_parent` reads. -/
def examined (fs : Echfs) (name : List UInt8) (parentId : ℕ) : (fuel entryN : ℕ) → List ℕ
  | 0, _ => []
  | fuel + 1, i => i ::
    if fs.Matches name parentId i ∨ (fs.readDirEntry i).parentId = 0 then []
    else examined fs name parentId fuel ((i + 1) % 2 ^ 64)

/-- The lowest match in front of the first unused entry, or none. -/
def FoundInDir (fs : Echfs) (name : List UInt8) (parentId j : ℕ) : Prop :=
  (j < fs.dirCount ∧ fs.Matches name parentId j ∧ (fs.readDirEntry j).parentId ≠ 0 ∧
    ∀ k < j, fs.Passes name parentId k) ∨
  j = echfsSearchFail ∧ ∀ i < fs.dirCount, fs.Matches name parentId i →
    ∃ k ≤ i, (fs.readDirEntry k).parentId = 0

theorem le_of_mem_examined {fuel i t : ℕ} (hit : i ≤ t) (ht : t < 2 ^ 64)
    (hstop : fs.Matches name id t ∨ (fs.readDirEntry t).parentId = 0) {k : ℕ}
    (hk : k ∈ fs.examined name id fuel i) : k ≤ t := by
  induction fuel generalizing i with
  | zero => cases hk
  | succ fuel ih =>
    rcases mem_cons.1 hk with rfl | hk
    · exact hit
    · split_ifs at hk with hi
      · cases hk
      · have hne : i ≠ t := fun h => hi (h ▸ hstop)
        exact ih (by omega) hk

/-- A search that no entry stops never ends. -/
theorem findEntryLoop_hang (hpass : ∀ k, fs.Passes name id k) (fuel i : ℕ) :
    fs.findEntryLoop name id fuel i = .error .hang := by
  induction fuel generalizing i with
  | zero => rfl
  | succ fuel ih => rw [findEntryLoop_succ, if_neg (hpass i).1, if_neg (hpass i).2, ih]

/-- A search that stops at an entry reads the entry. -/
theorem mem_examined {fuel i t : ℕ} (hit : i ≤ t) (htf : t < i + fuel) (ht : t < 2 ^ 64)
    (hpass : ∀ k, i ≤ k → k < t → fs.Passes name id k) : t ∈ fs.examined name id fuel i := by
  induction fuel generalizing i with
  | zero => omega
  | succ fuel ih =>
    rcases Nat.eq_or_lt_of_le hit with rfl | hlt
    · exact mem_cons_self
    · have hi := hpass i le_rfl hlt
      have hstep : (i + 1) % 2 ^ 64 = i + 1 := Nat.mod_eq_of_lt (by omega)
      rw [examined, if_neg (not_or.2 hi), hstep]
      exact mem_cons_of_mem i (ih (by omega) (by omega) fun k h1 h2 => hpass k (by omega) h2)

/-- **The search stays inside of the main directory and finds what it is to find exactly if** its
first entry that matches or is unused is not both. -/
theorem findEntryNameParent_bounded_iff :
    (∃ j, fs.findEntryNameParent name id = .ok j ∧ fs.FoundInDir name id j ∧
      ∀ k ∈ fs.examined name id (2 ^ 64) 0, k < fs.dirCount) ↔
    ∃ t < fs.dirCount, (∀ k < t, fs.Passes name id k) ∧
      (fs.Matches name id t ↔ (fs.readDirEntry t).parentId ≠ 0) := by
  have hcount : fs.dirCount < 2 ^ 56 :=
    Nat.div_lt_of_lt_mul (Nat.mod_lt _ (by decide))
  constructor
  · rintro ⟨j, hj, hfound, hread⟩
    obtain ⟨t, ht, hpass, hstop⟩ := findEntryNameParent_ok hj
    have hlt := hread t (mem_examined t.zero_le (by omega) ht fun k _ hk => hpass k hk)
    refine ⟨t, hlt, hpass, ?_⟩
    rcases hstop with ⟨hm, rfl⟩ | ⟨hm, hend, -⟩
    · rcases hfound with ⟨-, -, hused, -⟩ | ⟨hfail, -⟩
      · exact iff_of_true hm hused
      · unfold echfsSearchFail at hfail
        omega
    · exact iff_of_false hm (not_not.2 hend)
  · rintro ⟨t, hlt, hpass, hone⟩
    have ht64 : t < 2 ^ 64 := by omega
    by_cases hm : fs.Matches name id t
    · exact ⟨t, findEntryNameParent_of_matches ht64 hpass hm, .inl ⟨hlt, hm, hone.1 hm, hpass⟩,
        fun k hk => (le_of_mem_examined t.zero_le ht64 (.inl hm) hk).trans_lt hlt⟩
    · have hend := not_not.1 (mt hone.2 hm)
      refine ⟨_, findEntryNameParent_of_end ht64 hpass hm hend, .inr ⟨rfl, fun i _ hi => ?_⟩,
        fun k hk => (le_of_mem_examined t.zero_le ht64 (.inr hend) hk).trans_lt hlt⟩
      rcases Nat.lt_or_ge i t with hit | hit
      · exact absurd hi (hpass i hit).1
      · exact ⟨t, hit, hend⟩

/-- The search for `f` in the directory of id 5 ends in the main directory. -/
theorem findEntryNameParent_bounded_nestedFiles : ∃ j,
    nestedFiles.findEntryNameParent [0x66] 5 = .ok j ∧ nestedFiles.FoundInDir [0x66] 5 j ∧
    ∀ k ∈ nestedFiles.examined [0x66] 5 (2 ^ 64) 0, k < nestedFiles.dirCount :=
  findEntryNameParent_bounded_iff.2 ⟨1, by decide +kernel, by decide +kernel, by decide +kernel⟩

theorem passes_ones (k : ℕ) : (smallVolume fun _ => 0xFF).Passes [0x61] 5 k := by
  have hid : ((smallVolume fun _ => 0xFF).readDirEntry k).parentId = 2 ^ 64 - 1 :=
    (Bytes.getLE_congr fun i hi => Bytes.slice_of_lt (show 0 + i < 256 by omega)).trans
      (show Bytes.getLE (fun _ => 0xFF) 0 8 = 2 ^ 64 - 1 by decide +kernel)
  unfold Passes Matches
  rw [hid]
  exact ⟨fun h => absurd h.1 (by decide), by decide⟩

/-- A directory without an unused entry is searched forever, and the search for an empty name with
the parent 0 returns an unused entry. -/
theorem not_findEntryNameParent_bounded :
    (smallVolume fun _ => 0xFF).findEntryNameParent [0x61] 5 = .error .hang ∧
    ∃ j, (smallVolume fun _ => 0).findEntryNameParent [] 0 = .ok j ∧
      ((smallVolume fun _ => 0).readDirEntry j).parentId = 0 :=
  ⟨findEntryLoop_hang passes_ones _ _, 0, findEntryNameParent_of_matches (by decide) (by omega)
    (by decide +kernel), by decide +kernel⟩

end Echfs

end DripOS
