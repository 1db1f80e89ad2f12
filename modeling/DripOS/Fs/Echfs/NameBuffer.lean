import DripOS.Fs.Echfs.Path
import DripOS.Fs.Echfs.Table
import DripOS.Fs.PathElements

/-!
# The buffer for the names of a path

`echfs_path_resolve` copies the names of the path to `current_name`, an array of 201 characters.
Each character is stored with a null character behind it, and only then the length is looked at: the
name is too long if 201 characters are stored and the path goes on.

`Echfs.pathResolveName` records the places of the stores behind the end of the array;
`Echfs.pathResolve` stops at the first of them.

* `Echfs.resolveNameLoop_spec` : no store is behind the end, and both functions do the same, or
  there is one, and the path has a name of more than 200 characters;
* `Echfs.pathResolveName_inBounds_iff` : **all stores are in the array, and long names are rejected,
  exactly for the paths without long names.**
-/

namespace DripOS

open List Function Bytes

/-- The array `current_name`. -/
structure NameBuffer where
  bytes : Bytes
  /-- The places behind the end at which characters were stored. -/
  outside : List ℕ

namespace NameBuffer

/-- The array at the beginning of the function. -/
def init : NameBuffer := ⟨fun _ => 0, []⟩

/-- Stores a character. -/
def put (b : NameBuffer) (i : ℕ) (c : UInt8) : NameBuffer :=
  ⟨update b.bytes i c, if i < 201 then b.outside else b.outside ++ [i]⟩

/-- The string in the array; its null character may be behind the end. -/
def str (b : NameBuffer) : List UInt8 := (b.bytes.toList 202).takeWhile (· ≠ 0)

/-- The array holds a string, with its null character. -/
structure Holds (b : NameBuffer) (name : List UInt8) : Prop where
  bytes : b.bytes.toList name.length = name
  zero : b.bytes name.length = 0

variable {b : NameBuffer} {name : List UInt8}

theorem holds_nil (b : NameBuffer) : (b.put 0 0).Holds [] := ⟨rfl, update_self 0 0 b.bytes⟩

/-- One more character. -/
theorem Holds.put (h : b.Holds name) (c : UInt8) :
    ((b.put name.length c).put (name.length + 1) 0).Holds (name ++ [c]) := by
  have hlen : (name ++ [c]).length = name.length + 1 := by simp
  refine ⟨?_, ?_⟩
  · rw [hlen, toList_add]
    congr 1
    · refine Eq.trans (toList_congr fun i hi => ?_) h.bytes
      simp only [NameBuffer.put]
      rw [update_of_ne (by omega), update_of_ne (by omega)]
    · simp [NameBuffer.put, toList]
  · rw [hlen]
    exact update_self _ _ _

theorem Holds.str_eq (h : b.Holds name) (hlen : name.length ≤ 200) (h0 : 0 ∉ name) :
    b.str = name := by
  have hsplit : b.bytes.toList 202 =
      name ++ 0 :: toList (fun i => b.bytes (name.length + 1 + i)) (201 - name.length) := by
    have h202 : 202 = name.length + 1 + (201 - name.length) := by omega
    rw [h202, toList_add, toList_add, h.bytes]
    simp [toList, h.zero]
  have hne : ∀ c ∈ name, decide (c ≠ 0) = true := fun c hc =>
    decide_eq_true fun hzero => h0 (hzero ▸ hc)
  rw [str, hsplit, takeWhile_append_of_pos hne, takeWhile_cons_of_neg (by simp), append_nil]

end NameBuffer

/-- The loop that copies a name, with `i` characters already there. -/
def scanName : (path : List UInt8) → (i : ℕ) → (b : NameBuffer) → PathElem × NameBuffer
  | [], _, b => (.elem b.str true [], b)
  | c :: path, i, b =>
    if c = slash then (.elem b.str false path, b)
    else
      let b := (b.put i c).put (i + 1) 0
      if i + 1 = 201 ∧ path ≠ [] then (.tooLong, b) else scanName path (i + 1) b

namespace Echfs

section

variable (fs : Echfs)

/-- The loop over the names of the path. -/
def resolveNameLoop : (fuel : ℕ) → (filename : List UInt8) → (currentParent : ℕ) →
    (b : NameBuffer) → Except VolumeHalt Resolved × NameBuffer
  | 0, _, _, b => (.error .hang, b)
  | fuel + 1, filename, currentParent, b =>
    match scanName filename 0 (b.put 0 0) with
    | (.tooLong, b) => (.ok ⟨none, 1 <<< 1⟩, b)
    | (.elem name false rest, b) =>
      match fs.findEntryNameParent name currentParent with
      | .error e => (.error e, b)
      | .ok found =>
        if found = echfsSearchFail then (.ok ⟨none, 1 <<< 2⟩, b)
        else
          let entry := fs.readDirEntry found
          if entry.entryType ≠ echfsTypeDir then (.ok ⟨none, 1 <<< 2⟩, b)
          else resolveNameLoop fuel rest entry.startingBlock b
    | (.elem name true _, b) =>
      match fs.findEntryNameParent name currentParent with
      | .error e => (.error e, b)
      | .ok found =>
        if found = echfsSearchFail then (.ok ⟨none, 1 <<< 2⟩, b)
        else (.ok ⟨some { fs.readDirEntry found with entryNumber := found }, 0⟩, b)

/-- `echfs_path_resolve` past the cache, with the array. -/
def resolveName (filename : List UInt8) : Except VolumeHalt Resolved × NameBuffer :=
  let filename := if filename.head? = some slash then filename.tail else filename
  if filename = [slash] then (.ok ⟨none, 1 <<< 0⟩, .init)
  else fs.resolveNameLoop (filename.length + 1) filename echfsRootDirId .init

/-- `echfs_path_resolve` with the array. -/
def pathResolveName (filename : List UInt8) (unid : ℕ) :
    Except VolumeHalt (Resolved × Echfs) × NameBuffer :=
  if unid ≠ 0 then
    match fs.cachedDirEntries.getElem unid with
    | (some entry, m) => (.ok (⟨some entry, 0⟩, { fs with cachedDirEntries := m }), .init)
    | (none, m) =>
      let fs := { fs with cachedDirEntries := m }
      let r := fs.resolveName filename
      (do
        let res ← r.1
        match res.entry with
        | some entry => pure (res, { fs with cachedDirEntries := m.setElem unid entry })
        | none => pure (res, fs), r.2)
  else
    let r := fs.resolveName filename
    (do
      let res ← r.1
      pure (res, fs), r.2)

end

variable {fs : Echfs} {path part name rest : List UInt8} {b : NameBuffer}

/-! ### One name -/

/-- Characters of a name that has room in the array. -/
theorem scanName_chunk (hpart : slash ∉ part) (hb : b.Holds name)
    (hlen : name.length + part.length ≤ 200) :
    ∃ b', b'.Holds (name ++ part) ∧ b'.outside = b.outside ∧
      ∀ rest, scanName (part ++ rest) name.length b =
        scanName rest (name.length + part.length) b' := by
  induction part generalizing name b with
  | nil => exact ⟨b, by rwa [append_nil], rfl, fun rest => rfl⟩
  | cons c part ih =>
    have hc : c ≠ slash := fun h => hpart (h ▸ mem_cons_self)
    have hadd : name.length + 1 + part.length = name.length + (c :: part).length := by
      rw [length_cons]
      omega
    have hb1 := hb.put c
    have hlen1 : (name ++ [c]).length = name.length + 1 := by simp
    obtain ⟨b', hb', hout, hscan⟩ := ih (fun h => hpart (mem_cons_of_mem c h)) hb1 (by omega)
    rw [append_assoc, singleton_append] at hb'
    refine ⟨b', hb', ?_, fun rest => ?_⟩
    · rw [hout]
      simp only [NameBuffer.put]
      rw [if_pos (by omega), if_pos (by omega)]
    · have hrest := hscan rest
      rw [hlen1, hadd] at hrest
      rw [cons_append, scanName, if_neg hc]
      rw [if_neg (by omega), hrest]

/-- A name that has room in the array. -/
theorem scanName_short (hpart : slash ∉ part) (h0 : 0 ∉ part) (hlen : part.length ≤ 200)
    (b : NameBuffer) : ∃ b' : NameBuffer, b'.outside = b.outside ∧
      scanName part 0 (b.put 0 0) = (.elem part true [], b') ∧
      ∀ rest, scanName (part ++ slash :: rest) 0 (b.put 0 0) = (.elem part false rest, b') := by
  obtain ⟨b', hb', hout, hscan⟩ := scanName_chunk hpart b.holds_nil ((Nat.zero_add _).trans_le hlen)
  have hstr : b'.str = part := hb'.str_eq hlen h0
  refine ⟨b', hout, ?_, fun rest => ?_⟩
  · have hlast := hscan []
    rw [append_nil, scanName, hstr] at hlast
    exact hlast
  · have hdir := hscan (slash :: rest)
    rw [scanName, if_pos rfl, hstr] at hdir
    exact hdir

/-- A name of more than 200 characters is stored behind the end, and rejected unless the path ends
with its 201st character. -/
theorem scanName_long (hpart : slash ∉ part) (hlen : 200 < part.length) (b : NameBuffer)
    (rest : List UInt8) : ∃ b' : NameBuffer, b'.outside = b.outside ++ [201] ∧
      (scanName (part ++ rest) 0 (b.put 0 0) = (.tooLong, b') ∨
        scanName (part ++ rest) 0 (b.put 0 0) = (.elem b'.str true [], b')) := by
  obtain ⟨pre, c, post, rfl, hpre⟩ : ∃ pre c post, part = pre ++ c :: post ∧ pre.length = 200 :=
    ⟨part.take 200, part[200], part.drop 201, by simp, by simp; omega⟩
  have hc : c ≠ slash := fun h => hpart (by simp [h])
  obtain ⟨b1, -, hout, hscan⟩ := scanName_chunk (fun h => hpart (mem_append_left _ h))
    b.holds_nil ((Nat.zero_add _).trans_le hpre.le)
  refine ⟨(b1.put 200 c).put 201 0, ?_, ?_⟩
  · simp only [NameBuffer.put]
    rw [if_neg (by omega), if_pos (by omega), hout]
    rfl
  · have hlast := hscan (c :: post ++ rest)
    rw [length_nil, hpre, cons_append, scanName, if_neg hc] at hlast
    rw [append_assoc, cons_append, hlast]
    by_cases hend : post ++ rest = []
    · rw [if_neg (fun h => h.2 hend), hend]
      exact Or.inr rfl
    · rw [if_pos ⟨rfl, hend⟩]
      exact Or.inl rfl

/-! ### The path -/

/-- A long name at the beginning of the path. -/
theorem resolveNameLoop_long (hpart : slash ∉ part) (hlen : 200 < part.length)
    (rest : List UInt8) (fuel id : ℕ) (b : NameBuffer) :
    (fs.resolveNameLoop (fuel + 1) (part ++ rest) id b).2.outside = b.outside ++ [201] := by
  obtain ⟨b', hout, hscan | hscan⟩ := scanName_long hpart hlen b rest
  · rw [resolveNameLoop, hscan]
    exact hout
  · rw [resolveNameLoop, hscan]
    dsimp only
    cases fs.findEntryNameParent b'.str id with
    | error e => exact hout
    | ok found =>
      dsimp only
      split_ifs
      · exact hout
      · exact hout

/-- A last name that has room. -/
theorem resolveNameLoop_last (hpart : slash ∉ part) (h0 : 0 ∉ part) (hlen : part.length ≤ 200)
    (fuel id : ℕ) (b : NameBuffer) :
    (fs.resolveNameLoop (fuel + 1) part id b).2.outside = b.outside ∧
      (fs.resolveNameLoop (fuel + 1) part id b).1 = fs.resolveLoop (fuel + 1) part id := by
  obtain ⟨b', hout, hscan, -⟩ := scanName_short hpart h0 hlen b
  rw [resolveNameLoop, hscan, resolveLoop, scanElem_last hpart [] (Nat.zero_le _),
    if_pos (by simpa using hlen), ok_bind, nil_append]
  dsimp only
  cases fs.findEntryNameParent part id with
  | error e => exact ⟨hout, rfl⟩
  | ok found =>
    rw [ok_bind]
    dsimp only
    split_ifs
    · exact ⟨hout, rfl⟩
    · exact ⟨hout, rfl⟩

/-- A directory name that fits: the search fails, or the rest is looked up in the directory. -/
theorem resolveNameLoop_dir (hpart : slash ∉ part) (h0 : 0 ∉ part) (hlen : part.length ≤ 200)
    (rest : List UInt8) (fuel id : ℕ) (b : NameBuffer) :
    ((fs.resolveNameLoop (fuel + 1) (part ++ slash :: rest) id b).2.outside = b.outside ∧
      (fs.resolveNameLoop (fuel + 1) (part ++ slash :: rest) id b).1 =
        fs.resolveLoop (fuel + 1) (part ++ slash :: rest) id) ∨
    ∃ (b' : NameBuffer) (id' : ℕ), b'.outside = b.outside ∧
      fs.resolveNameLoop (fuel + 1) (part ++ slash :: rest) id b =
        fs.resolveNameLoop fuel rest id' b' ∧
      fs.resolveLoop (fuel + 1) (part ++ slash :: rest) id = fs.resolveLoop fuel rest id' := by
  obtain ⟨b', hout, -, hscan⟩ := scanName_short hpart h0 hlen b
  rw [resolveNameLoop, hscan, resolveLoop, scanElem_dir hpart _ [] (Nat.zero_le _),
    if_pos (by simpa using hlen), ok_bind, nil_append]
  dsimp only
  cases fs.findEntryNameParent part id with
  | error e => exact Or.inl ⟨hout, rfl⟩
  | ok found =>
    rw [ok_bind]
    dsimp only
    split_ifs
    · exact Or.inl ⟨hout, rfl⟩
    · exact Or.inl ⟨hout, rfl⟩
    · exact Or.inr ⟨b', _, hout, rfl, rfl⟩

/-- **The loop as far as the array is concerned**: nothing happens behind its end and the result is
that of `resolveLoop`, or a null character is stored there. -/
theorem resolveNameLoop_spec (h0 : 0 ∉ path) (fuel id : ℕ) (b : NameBuffer) :
    ((fs.resolveNameLoop fuel path id b).2.outside = b.outside ∧
      (fs.resolveNameLoop fuel path id b).1 = fs.resolveLoop fuel path id) ∨
    ((fs.resolveNameLoop fuel path id b).2.outside = b.outside ++ [201] ∧
      ∃ part ∈ path.splitOn slash, 200 < part.length) := by
  induction path using Vfs.part_induction generalizing fuel id b with
  | last part hpart =>
    rw [splitOn_eq_singleton hpart]
    cases fuel with
    | zero => exact Or.inl ⟨rfl, rfl⟩
    | succ fuel =>
      rcases Nat.lt_or_ge 200 part.length with hlen | hlen
      · have hlong := @resolveNameLoop_long fs _ hpart hlen [] fuel id b
        rw [append_nil] at hlong
        exact Or.inr ⟨hlong, part, mem_singleton_self part, hlen⟩
      · exact Or.inl (resolveNameLoop_last hpart h0 hlen fuel id b)
  | cons part path hpart ih =>
    rw [splitOn_append_cons_self_of_not_mem hpart]
    have h0part : 0 ∉ part := fun h => h0 (mem_append_left _ h)
    have h0path : 0 ∉ path := fun h => h0 (by simp [h])
    cases fuel with
    | zero => exact Or.inl ⟨rfl, rfl⟩
    | succ fuel =>
      rcases Nat.lt_or_ge 200 part.length with hlen | hlen
      · exact Or.inr ⟨resolveNameLoop_long hpart hlen _ fuel id b, part, mem_cons_self, hlen⟩
      · rcases @resolveNameLoop_dir fs _ hpart h0part hlen path fuel id b with
          hsame | ⟨b', id', hout, hname, hloop⟩
        · exact Or.inl hsame
        · rw [hname, hloop, ← hout]
          exact (ih h0path fuel id' b').imp_right (And.imp_right fun ⟨p, hp, hlong⟩ =>
            ⟨p, mem_cons_of_mem part hp, hlong⟩)

/-- The walk that stops at the end of the array finds no name too long. -/
theorem errCode_of_resolveLoop {fuel id : ℕ} {res : Resolved}
    (h : fs.resolveLoop fuel path id = .ok res) : res.errCode.testBit 1 = false := by
  have hsearch : Nat.testBit (1 <<< 2) 1 = false := by decide
  induction path using Vfs.part_induction generalizing fuel id with
  | last part hpart =>
    cases fuel with
    | zero => cases h
    | succ fuel =>
      rw [resolveLoop, scanElem_last hpart [] (Nat.zero_le _)] at h
      obtain ⟨elem, helem, h⟩ := bind_eq_ok.1 h
      split_ifs at helem
      cases helem
      obtain ⟨found, -, h⟩ := bind_eq_ok.1 h
      split_ifs at h
      · cases h
        exact hsearch
      · cases h
        exact Nat.zero_testBit 1
  | cons part path hpart ih =>
    cases fuel with
    | zero => cases h
    | succ fuel =>
      rw [resolveLoop, scanElem_dir hpart _ [] (Nat.zero_le _)] at h
      obtain ⟨elem, helem, h⟩ := bind_eq_ok.1 h
      split_ifs at helem
      cases helem
      obtain ⟨found, -, h⟩ := bind_eq_ok.1 h
      dsimp only at h
      split_ifs at h
      · cases h
        exact hsearch
      · cases h
        exact hsearch
      · exact ih h

theorem errCode_of_resolveUncached {res : Resolved} (h : fs.resolveUncached path = .ok res) :
    res.errCode.testBit 1 = false := by
  unfold resolveUncached at h
  generalize (if path.head? = some slash then path.tail else path) = filename at h
  dsimp only at h
  split_ifs at h
  · cases h
    decide
  · exact errCode_of_resolveLoop h

/-- The parts of the path behind its leading `/` are parts of the path. -/
theorem mem_splitOn_relative (h : part ∈ (Vfs.relative path).splitOn slash) :
    part ∈ path.splitOn slash := by
  unfold Vfs.relative at h
  split_ifs at h with hhead
  · obtain ⟨rest, rfl⟩ := List.head?_eq_some_iff.1 hhead
    exact mem_cons_of_mem [] h
  · exact h

theorem resolveName_spec (h0 : 0 ∉ path) :
    ((fs.resolveName path).2.outside = [] ∧ (fs.resolveName path).1 = fs.resolveUncached path) ∨
    ((fs.resolveName path).2.outside = [201] ∧ ∃ part ∈ path.splitOn slash, 200 < part.length) := by
  have h0rel : 0 ∉ Vfs.relative path := by
    unfold Vfs.relative
    split_ifs
    · exact fun h => h0 (mem_of_mem_tail h)
    · exact h0
  have hname : fs.resolveName path = if Vfs.relative path = [slash] then
      (.ok ⟨none, 1 <<< 0⟩, .init) else
      fs.resolveNameLoop ((Vfs.relative path).length + 1) (Vfs.relative path) echfsRootDirId
        .init := rfl
  have huncached : fs.resolveUncached path = if Vfs.relative path = [slash] then
      .ok ⟨none, 1 <<< 0⟩ else
      fs.resolveLoop ((Vfs.relative path).length + 1) (Vfs.relative path) echfsRootDirId := rfl
  rw [hname, huncached]
  split_ifs
  · exact Or.inl ⟨rfl, rfl⟩
  · exact (resolveNameLoop_spec h0rel _ _ .init).imp_right (And.imp_right
      fun ⟨part, hpart, hlen⟩ => ⟨part, mem_splitOn_relative hpart, hlen⟩)

/-- **Without a store behind the end, the function is the one without the array.** -/
theorem pathResolveName_spec (h0 : 0 ∉ path) (unid : ℕ) :
    ((fs.pathResolveName path unid).2.outside = [] ∧
      (fs.pathResolveName path unid).1 = fs.pathResolve path unid) ∨
    ((fs.pathResolveName path unid).2.outside = [201] ∧
      ∃ part ∈ path.splitOn slash, 200 < part.length) := by
  unfold pathResolveName pathResolve
  by_cases hunid : unid ≠ 0
  · rw [if_pos hunid, if_pos hunid]
    rcases fs.cachedDirEntries.getElem unid with ⟨_ | entry, m⟩
    · rcases @resolveName_spec { fs with cachedDirEntries := m } path h0 with ⟨hout, hres⟩ | hlong
      · refine Or.inl ⟨hout, ?_⟩
        dsimp only
        exact hres ▸ rfl
      · exact Or.inr hlong
    · exact Or.inl ⟨rfl, rfl⟩
  · rw [if_neg hunid, if_neg hunid]
    rcases @resolveName_spec fs path h0 with ⟨hout, hres⟩ | hlong
    · refine Or.inl ⟨hout, ?_⟩
      dsimp only
      rw [hres]
    · exact Or.inr hlong

/-- No path is rejected for a long name without a store behind the end. -/
theorem errCode_of_pathResolve {unid : ℕ} {res : Resolved} {fs' : Echfs}
    (h : fs.pathResolve path unid = .ok (res, fs')) : res.errCode.testBit 1 = false := by
  unfold pathResolve at h
  split_ifs at h
  · rcases hget : fs.cachedDirEntries.getElem unid with ⟨_ | entry, m⟩
    · rw [hget] at h
      obtain ⟨r, hr, h⟩ := bind_eq_ok.1 h
      have herr := errCode_of_resolveUncached hr
      cases hentry : r.entry with
      | none =>
        rw [hentry] at h
        cases h
        exact herr
      | some entry =>
        rw [hentry] at h
        cases h
        exact herr
    · rw [hget] at h
      cases h
      exact Nat.zero_testBit 1
  · obtain ⟨r, hr, h⟩ := bind_eq_ok.1 h
    cases h
    exact errCode_of_resolveUncached hr

/-- **All stores are in the array, and a path with a name of more than 200 characters is rejected as
too long, exactly if there is no such name.** -/
theorem pathResolveName_inBounds_iff (fs : Echfs) (unid : ℕ) (h0 : 0 ∉ path) :
    ((fs.pathResolveName path unid).2.outside = [] ∧
      ((∃ part ∈ path.splitOn slash, 200 < part.length) →
        ∃ res fs', (fs.pathResolveName path unid).1 = .ok (res, fs') ∧
          res.entry = none ∧ res.errCode.testBit 1 = true)) ↔
    ∀ part ∈ path.splitOn slash, part.length ≤ 200 := by
  constructor
  · rintro ⟨hout, hrejected⟩ part hpart
    by_contra hlong
    obtain ⟨res, fs', hres, -, hbit⟩ := hrejected ⟨part, hpart, Nat.not_le.1 hlong⟩
    rcases @pathResolveName_spec fs path h0 unid with ⟨-, heq⟩ | ⟨hout', -⟩
    · rw [errCode_of_pathResolve (heq.symm.trans hres)] at hbit
      cases hbit
    · rw [hout] at hout'
      cases hout'
  · intro hshort
    have hno : ¬ ∃ part ∈ path.splitOn slash, 200 < part.length :=
      fun ⟨part, hpart, hlong⟩ => Nat.not_le.2 hlong (hshort part hpart)
    exact ⟨(@pathResolveName_spec fs path h0 unid).elim And.left fun h => absurd h.2 hno,
      fun h => absurd h hno⟩

/-- The path `/a`. -/
theorem pathResolveName_inBounds_a : 0 ∉ [slash, 0x61] ∧
    ((smallVolume fun _ => 0).pathResolveName [slash, 0x61] 0).2.outside = [] :=
  ⟨by decide, ((pathResolveName_inBounds_iff _ 0 (by decide)).2 (by decide)).1⟩

/-- A name of 201 characters at the end of a path is stored behind the end and not rejected; with
202 characters it is, but only after the store. -/
theorem pathResolveName_outside :
    ((smallVolume fun _ => 0).pathResolveName (List.replicate 201 0x61) 0).2.outside = [201] ∧
    ((smallVolume fun _ => 0).pathResolveName (List.replicate 201 0x61) 0).1.toOption.map
      (·.1.errCode) = some (1 <<< 2) ∧
    ((smallVolume fun _ => 0).pathResolveName (List.replicate 202 0x61) 0).2.outside = [201] ∧
    ((smallVolume fun _ => 0).pathResolveName (List.replicate 202 0x61) 0).1.toOption.map
      (·.1.errCode) = some (1 <<< 1) := by
  decide +kernel

end Echfs

end DripOS
