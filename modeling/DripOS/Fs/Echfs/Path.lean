import DripOS.Fs.Echfs.Directory

/-!
# Walks along paths

A path is a list of directories and a last name, with a `/` behind every directory (`joinPath`).
`Echfs.resolveLoop_joinPath` shows that `echfs_path_resolve` is a walk to the last directory
(`Echfs.walk`) and a search for the last name.
-/

namespace DripOS

open List

/-- The path of `name` in the directories `dirs`. -/
def joinPath : (dirs : List (List UInt8)) → (name : List UInt8) → List UInt8
  | [], name => name
  | dir :: dirs, name => dir ++ slash :: joinPath dirs name

theorem joinPath_snoc (dirs : List (List UInt8)) (dir name : List UInt8) :
    joinPath (dirs ++ [dir]) name = joinPath dirs dir ++ slash :: name := by
  induction dirs with
  | nil => rfl
  | cons d dirs ih =>
    show d ++ slash :: joinPath (dirs ++ [dir]) name = (d ++ slash :: joinPath dirs dir) ++ _
    rw [ih, append_assoc, cons_append]

theorem length_joinPath_lt (dirs : List (List UInt8)) (name : List UInt8) :
    dirs.length < (joinPath dirs name).length + 1 := by
  induction dirs with
  | nil => exact Nat.succ_pos _
  | cons d dirs ih =>
    show dirs.length + 1 < (d ++ slash :: joinPath dirs name).length + 1
    rw [length_append, length_cons]
    omega

/-! ### The elements of a path -/

theorem scanElem_append {part : List UInt8} (hpart : slash ∉ part) (rest name : List UInt8)
    (hname : name.length ≤ 200) : scanElem (part ++ rest) name =
      if name.length + part.length ≤ 200 then scanElem rest (name ++ part)
      else .error .fault := by
  induction part generalizing name with
  | nil => rw [append_nil, nil_append, if_pos (by simpa using hname)]
  | cons c part ih =>
    have hc : c ≠ slash := fun h => hpart (h ▸ mem_cons_self)
    rw [cons_append, scanElem, if_neg hc]
    by_cases hfull : name.length + 1 ≥ 201
    · rw [if_pos hfull, if_neg (by rw [length_cons]; omega)]
    · rw [if_neg hfull, if_neg (by omega),
        ih (fun h => hpart (mem_cons_of_mem c h)) _ (by simp; omega)]
      simp only [length_append, length_cons, append_assoc, length_nil]
      congr 1
      rw [eq_iff_iff]
      omega

theorem scanElem_dir {dir : List UInt8} (hdir : slash ∉ dir) (rest name : List UInt8)
    (hname : name.length ≤ 200) : scanElem (dir ++ slash :: rest) name =
      if name.length + dir.length ≤ 200 then .ok (.elem (name ++ dir) false rest)
      else .error .fault :=
  scanElem_append hdir (slash :: rest) name hname

theorem scanElem_last {last : List UInt8} (hlast : slash ∉ last) (name : List UInt8)
    (hname : name.length ≤ 200) : scanElem last name =
      if name.length + last.length ≤ 200 then .ok (.elem (name ++ last) true [])
      else .error .fault := by
  have h := scanElem_append hlast [] name hname
  rwa [append_nil] at h

namespace Echfs

variable {fs fs' : Echfs}

/-- The search for a name of a path, which has to fit into a buffer. -/
def searchElem (fs : Echfs) (name : List UInt8) (parentId : ℕ) : Except VolumeHalt (Option ℕ) :=
  if name.length ≤ 200 then do
    let found ← fs.findEntryNameParent name parentId
    if found = echfsSearchFail then pure none else pure (some found)
  else .error .fault

/-- The walk along directories: the id of the last one. -/
def walk (fs : Echfs) : (dirs : List (List UInt8)) → (id : ℕ) → Except VolumeHalt (Option ℕ)
  | [], id => .ok (some id)
  | dir :: dirs, id => do
    match ← fs.searchElem dir id with
    | none => pure none
    | some i =>
      if (fs.readDirEntry i).entryType ≠ echfsTypeDir then pure none
      else fs.walk dirs (fs.readDirEntry i).startingBlock

/-- The end of a lookup: the entry of the last name. -/
def lastElem (fs : Echfs) (name : List UInt8) (parentId : ℕ) : Except VolumeHalt Resolved := do
  match ← fs.searchElem name parentId with
  | none => pure ⟨none, 1 <<< 2⟩
  | some i => pure ⟨some { fs.readDirEntry i with entryNumber := i }, 0⟩

/-- A walk to the last directory of a path, and a search there. -/
def lookupPath (fs : Echfs) (dirs : List (List UInt8)) (name : List UInt8) (id : ℕ) :
    Except VolumeHalt Resolved := do
  match ← fs.walk dirs id with
  | none => pure ⟨none, 1 <<< 2⟩
  | some parentId => fs.lastElem name parentId

/-- **The rounds of `echfs_path_resolve` are a walk along the directories.** -/
theorem resolveLoop_joinPath {dirs : List (List UInt8)} {name : List UInt8}
    (hdirs : ∀ dir ∈ dirs, slash ∉ dir) (hname : slash ∉ name) {fuel : ℕ}
    (hfuel : dirs.length < fuel) (id : ℕ) :
    fs.resolveLoop fuel (joinPath dirs name) id = fs.lookupPath dirs name id := by
  induction dirs generalizing fuel id with
  | nil =>
    obtain ⟨fuel, rfl⟩ := Nat.exists_eq_succ_of_ne_zero (Nat.ne_of_gt hfuel)
    rw [joinPath, resolveLoop, scanElem_last hname [] (Nat.zero_le _)]
    simp only [lookupPath, walk, lastElem, searchElem, ok_bind, length_nil, Nat.zero_add,
      nil_append]
    split_ifs
    · rw [ok_bind]
      dsimp only
      cases fs.findEntryNameParent name id with
      | error e => rfl
      | ok found =>
        simp only [ok_bind]
        split_ifs <;> rfl
    · rfl
  | cons dir dirs ih =>
    obtain ⟨fuel, rfl⟩ := Nat.exists_eq_succ_of_ne_zero (Nat.ne_of_gt (Nat.lt_of_le_of_lt
      (Nat.zero_le _) hfuel))
    have hrest := @ih (fun d hd => hdirs d (mem_cons_of_mem dir hd)) fuel
      (Nat.lt_of_succ_lt_succ hfuel)
    rw [joinPath, resolveLoop, scanElem_dir (hdirs dir mem_cons_self) _ [] (Nat.zero_le _),
      lookupPath, walk, searchElem]
    simp only [length_nil, Nat.zero_add, nil_append]
    split_ifs
    · rw [ok_bind]
      dsimp only
      cases fs.findEntryNameParent dir id with
      | error e => rfl
      | ok found =>
        simp only [ok_bind]
        split_ifs with hfail htype
        · rfl
        · simp only [pure_bind]
          rw [if_pos htype]
          rfl
        · simp only [pure_bind]
          rw [if_neg htype]
          exact hrest _
    · rfl

theorem resolveUncached_joinPath {dirs : List (List UInt8)} {name : List UInt8}
    (hdirs : ∀ dir ∈ dirs, slash ∉ dir) (hname : slash ∉ name)
    (hpath : joinPath dirs name ≠ [slash]) :
    fs.resolveUncached (slash :: joinPath dirs name) = fs.lookupPath dirs name echfsRootDirId := by
  rw [resolveUncached, List.head?_cons, if_pos rfl, tail_cons, if_neg hpath]
  exact resolveLoop_joinPath hdirs hname (length_joinPath_lt dirs name) _

/-! ### What a walk finds -/

variable {dirs : List (List UInt8)} {dir name : List UInt8} {id i : ℕ} {r : Resolved}

theorem searchElem_ok {o : Option ℕ} (h : fs.searchElem name id = .ok o) :
    name.length ≤ 200 ∧ (o = none ∧ fs.findEntryNameParent name id = .ok echfsSearchFail ∨
      ∃ i, o = some i ∧ i ≠ echfsSearchFail ∧ fs.findEntryNameParent name id = .ok i) := by
  unfold searchElem at h
  split_ifs at h with hshort
  refine ⟨hshort, ?_⟩
  obtain ⟨found, hfound, h⟩ := bind_eq_ok.1 h
  split_ifs at h with hfail
  · exact Or.inl ⟨(Except.ok.inj h).symm, hfail ▸ hfound⟩
  · exact Or.inr ⟨found, (Except.ok.inj h).symm, hfail, hfound⟩

theorem lastElem_ok (h : fs.lastElem name id = .ok r) :
    r.entry = none ∧ fs.searchElem name id = .ok none ∨
      ∃ i, r = ⟨some ⟨(fs.readDirEntry i).raw, i⟩, 0⟩ ∧ fs.searchElem name id = .ok (some i) := by
  obtain ⟨o, ho, h⟩ := bind_eq_ok.1 h
  cases o with
  | none =>
    cases h
    exact Or.inl ⟨rfl, ho⟩
  | some i => exact Or.inr ⟨i, (Except.ok.inj h).symm, ho⟩

theorem lookupPath_ok (h : fs.lookupPath dirs name id = .ok r) :
    r.entry = none ∧ fs.walk dirs id = .ok none ∨
      ∃ q, fs.walk dirs id = .ok (some q) ∧ fs.lastElem name q = .ok r := by
  obtain ⟨o, ho, h⟩ := bind_eq_ok.1 h
  cases o with
  | none =>
    cases h
    exact Or.inl ⟨rfl, ho⟩
  | some q => exact Or.inr ⟨q, ho, h⟩

theorem walk_snoc (dirs : List (List UInt8)) (dir : List UInt8) (id : ℕ) :
    fs.walk (dirs ++ [dir]) id = (fs.walk dirs id >>= fun o => match o with
      | none => pure none
      | some q => fs.walk [dir] q) := by
  induction dirs generalizing id with
  | nil => rfl
  | cons d dirs ih =>
    rw [cons_append, walk, walk]
    cases fs.searchElem d id with
    | error e => rfl
    | ok o =>
      rw [ok_bind, ok_bind]
      cases o with
      | none => rfl
      | some i =>
        dsimp only
        split_ifs
        · rfl
        · exact ih _

/-- A lookup that finds a directory is a walk to it. -/
theorem walk_of_lookupPath {e : DirEntry} {c : ℕ}
    (h : fs.lookupPath dirs dir id = .ok ⟨some e, c⟩) (htype : e.entryType = echfsTypeDir) :
    fs.walk (dirs ++ [dir]) id = .ok (some e.startingBlock) := by
  obtain ⟨hnone, -⟩ | ⟨q, hwalk, hlast⟩ := lookupPath_ok h
  · cases hnone
  · obtain ⟨hnone, -⟩ | ⟨i, hr, hi⟩ := lastElem_ok hlast
    · cases hnone
    · cases hr
      have htype' : ¬ (fs.readDirEntry i).entryType ≠ echfsTypeDir := not_not.2 htype
      rw [walk_snoc, hwalk, ok_bind]
      dsimp only
      rw [walk, hi, ok_bind]
      dsimp only
      rw [if_neg htype']
      rfl

end Echfs

end DripOS
