import DripOS.Fs.FullPath

/-!
# Taking paths apart

The functions of `Klibc/Strings` that cut a path at its last `/`, for the paths of the VFS, and
`get_mountpoint_relative_path` of `src/fs/vfs/vfs.c`, which skips the path of the mount point.

* `Vfs.pathElem_roundtrip` : the parent and the last element of a path, joined, are the path;
* `Vfs.getMountpointRelativePath_append` : the part of a path behind the mount point.
-/

namespace DripOS

open List

namespace Vfs

variable {t : VfsTree} {a : Addr} {elem path front str : Str} {elems : List Str} {trailing : Bool}

theorem pathOf_eq_nil : pathOf elems false = [] ↔ elems = [] := by
  cases elems with
  | nil => simp [pathOf_nil]
  | cons elem elems => simp [pathOf_cons]

/-- **The functions that take an absolute path apart find a `/` in it and return the parent and the
last element, and `path_join` puts these together again.** -/
theorem pathElem_roundtrip {ε : Type} (fault : ε) (elems : List Str) (elem : Str)
    (hes : ∀ e ∈ elems, IsElem e) (he : IsElem elem) :
    pathRemoveElem fault (pathOf (elems ++ [elem]) false) = .ok (fullPath elems) ∧
      ptrToEndPathElem fault (pathOf (elems ++ [elem]) false) = .ok elem ∧
      getPathElem fault (pathOf (elems ++ [elem]) false) = .ok (elem, fullPath elems) ∧
      fullPath elems ≠ [] ∧
      pathJoin (fullPath elems) elem = pathOf (elems ++ [elem]) false := by
  have hparent : (if pathOf elems false = [] then [slash] else pathOf elems false) =
      fullPath elems := by simp only [fullPath, pathOf_eq_nil]
  refine ⟨?_, ?_, ?_, ?_, ?_⟩
  · rw [pathOf_concat, pathRemoveElem_append fault _ he.2, hparent]
  · rw [pathOf_concat, ptrToEndPathElem_append fault _ he.2]
  · rw [pathOf_concat, getPathElem_append fault _ he.2, hparent]
  · unfold fullPath
    split_ifs with hnil
    · exact cons_ne_nil _ _
    · exact mt pathOf_eq_nil.1 hnil
  · rw [pathJoin_fullPath hes he, fullPath, if_neg (by simp)]

/-- The path `/a/b`, with elements of one character. -/
theorem pathElem_roundtrip_short :
    pathRemoveElem VfsHalt.fault [slash, 97, slash, 98] = .ok [slash, 97] ∧
      ptrToEndPathElem VfsHalt.fault [slash, 97, slash, 98] = .ok [98] ∧
      getPathElem VfsHalt.fault [slash, 97, slash, 98] = .ok ([98], [slash, 97]) ∧
      [slash, 97] ≠ [] ∧ pathJoin [slash, 97] [98] = [slash, 97, slash, 98] :=
  pathElem_roundtrip VfsHalt.fault [[97]] [98] (by simp [IsElem, slash]) (by simp [IsElem, slash])

/-! ### Paths with a `/` at both ends -/

/-- The elements of a path, each with a `/` behind it. -/
def closed (elems : List Str) : Str := elems.flatMap (· ++ [slash])

theorem pathOf_true (elems : List Str) : pathOf elems true = slash :: closed elems := by
  induction elems with
  | nil => rfl
  | cons elem elems ih => simp [pathOf_cons, ih, closed]

theorem pathOf_false_append (elems : List Str) :
    pathOf elems false ++ [slash] = slash :: closed elems := by
  rw [← pathOf_true]
  simp [pathOf]

theorem getLast?_closed (front : Str) (elems : List Str) :
    (front ++ slash :: closed elems).getLast? = some slash := by
  rw [← pathOf_false_append]
  simp

theorem normalizePath_of_closed (hhead : path.head? = some slash)
    (hlast : path.getLast? = some slash) (hlen : path.length ≤ 8191) :
    normalizePath path = .ok path := by
  simp only [normalizePath, hhead, hlast, ne_eq, not_true, if_false, nil_append]
  exact if_pos (Nat.succ_le_succ hlen)

theorem normalizePath_of_open (hhead : path.head? = some slash)
    (hlast : path.getLast? ≠ some slash) (hlen : path.length ≤ 8190) :
    normalizePath path = .ok (path ++ [slash]) := by
  simp only [normalizePath, hhead, hlast, ne_eq, not_true, not_false_eq_true, if_false, if_true,
    nil_append]
  exact if_pos (by rw [length_append]; exact Nat.add_le_add_right hlen 2)

theorem normalizePath_cons (h : path.head? ≠ some slash) :
    normalizePath path = normalizePath (slash :: path) := by
  simp [normalizePath, h]

theorem normalizePath_closed (hes : ∀ e ∈ elems, IsElem e) (hlen : (closed elems).length ≤ 8190) :
    normalizePath (closed elems) = .ok (slash :: closed elems) := by
  have hhead : (closed elems).head? ≠ some slash := by
    cases elems with
    | nil => simp [closed]
    | cons elem elems =>
      obtain ⟨hne, hslash⟩ := hes elem mem_cons_self
      obtain ⟨ch, tail, rfl⟩ := exists_cons_of_ne_nil hne
      have hch : ch ≠ slash := fun h => hslash (h ▸ mem_cons_self)
      simpa [closed] using hch
  rw [normalizePath_cons hhead]
  exact normalizePath_of_closed rfl (getLast?_closed [] elems) (Nat.succ_le_succ hlen)

/-- The path of a node, or a path that starts there. -/
theorem normalizePath_append (hfront : front = [] ∨ front.head? = some slash)
    (hes : ∀ e ∈ elems, IsElem e) (hne : elems ≠ [] ∨ trailing = true)
    (hlen : (front ++ pathOf elems trailing).length ≤ 8190) :
    normalizePath (front ++ pathOf elems trailing) = .ok (front ++ slash :: closed elems) := by
  have hrest : (pathOf elems trailing).head? = some slash := by
    cases elems with
    | nil => simp [pathOf_nil, hne.resolve_left (fun h => h rfl)]
    | cons elem elems => rw [pathOf_cons, List.head?_cons]
  have hhead : (front ++ pathOf elems trailing).head? = some slash := by
    rcases hfront with rfl | hfront
    · exact hrest
    · rw [List.head?_append, hfront, Option.some_or]
  cases trailing with
  | true =>
    rw [pathOf_true] at hhead hlen ⊢
    exact normalizePath_of_closed hhead (getLast?_closed front elems) (by omega)
  | false =>
    obtain ⟨init, last, rfl⟩ := (eq_nil_or_concat' elems).resolve_left
      (hne.resolve_right Bool.false_ne_true)
    have hlast : (front ++ pathOf (init ++ [last]) false).getLast? ≠ some slash := by
      rw [pathOf_concat, append_cons, ← append_assoc]
      exact getLast?_append_elem (hes last (by simp)) _
    rw [normalizePath_of_open hhead hlast hlen, append_assoc, pathOf_false_append]

/-! ### Paths below a mount point -/

theorem fullPathLoop_returns (hnode : (t.node a).isSome) (hnames : Named t a)
    (hlen : str.length + (pathOf (t.chain a) false).length < 4096) :
    ∃ str', fullPathLoop t a str = .ok str' := by
  induction a generalizing str with
  | nil => exact ⟨str, rfl⟩
  | cons i a ih =>
    obtain ⟨p, hp, -⟩ := t.parent i a hnode
    obtain ⟨node, hn⟩ := Option.isSome_iff_exists.1 hnode
    have hchain : t.chain (i :: a) = t.chain a ++ [node.name] := by simp [NameTree.chain, hn]
    rw [hchain, pathOf_concat, length_append, length_cons] at hlen
    have hname : node.name ≠ [] := (hnames node.name (by simp [hchain])).1
    have hroom : ¬ blockSize (str.length + node.name.length + 1) <
        str.length + node.name.length + 1 + 1 := by
      unfold blockSize
      omega
    rw [fullPathLoop, hn]
    dsimp only
    rw [if_neg (not_or.2 ⟨hname, hroom⟩)]
    refine ih (by rw [hp]; rfl) (fun name h => hnames name (by simp [hchain, h])) ?_
    simp
    omega

theorem getFullPath_eq (hnode : (t.node a).isSome) (hnames : Named t a)
    (hlen : (pathOf (t.chain a) false).length < 4096) :
    getFullPath t a = .ok (pathOf (t.chain a) false) := by
  obtain ⟨str, hloop⟩ := @fullPathLoop_returns t a [] hnode hnames (by simpa using hlen)
  rw [getFullPath, hloop, fullPathLoop_ok hloop]
  simp [Except.map]

/-- **The part of a path behind the path of a mount point, with a `/` at both ends.** -/
theorem getMountpointRelativePath_append (t : VfsTree) (a : Addr) (elems : List Str)
    (trailing : Bool) (hnode : (t.node a).isSome) (hnames : Named t a)
    (hes : ∀ e ∈ elems, IsElem e)
    (hlen : (pathOf (t.chain a) false ++ pathOf elems trailing).length ≤ 4094) :
    getMountpointRelativePath t a (pathOf (t.chain a) false ++ pathOf elems trailing) =
      .ok (slash :: elems.flatMap (· ++ [slash])) := by
  have hlens := hlen
  rw [length_append] at hlens
  have hclosed := congrArg length (pathOf_false_append elems)
  have hle : (pathOf elems false).length ≤ (pathOf elems trailing).length := by simp [pathOf]
  rw [length_append, length_singleton, length_cons] at hclosed
  rw [getMountpointRelativePath, getFullPath_eq hnode hnames (by omega), ok_bind]
  generalize hfull : pathOf (t.chain a) false = full at hlen hlens
  have hfront : full = [] ∨ full.head? = some slash := by
    rw [← hfull]
    cases t.chain a with
    | nil => exact .inl rfl
    | cons elem elems => exact .inr (by rw [pathOf_cons, List.head?_cons])
  have hrest : normalizePath (closed elems) = .ok (slash :: closed elems) :=
    normalizePath_closed hes (by omega)
  -- the path of the mount point ends with a `/` when its name does
  obtain ⟨mp, hmp, hcut⟩ : ∃ mp, normalizePath full = .ok mp ∧ (mp = full ∧
      full.getLast? = some slash ∨ mp = full ++ [slash]) := by
    by_cases hlast : full.getLast? = some slash
    · have hhead := hfront.resolve_left (fun h => by simp [h] at hlast)
      exact ⟨full, normalizePath_of_closed hhead hlast (by omega), .inl ⟨rfl, hlast⟩⟩
    · refine ⟨full ++ [slash], ?_, .inr rfl⟩
      rcases hfront with rfl | hhead
      · decide
      · exact normalizePath_of_open hhead hlast (by omega)
  rw [hmp, ok_bind]
  by_cases hne : elems ≠ [] ∨ trailing = true
  · rw [normalizePath_append hfront hes hne (by omega), ok_bind]
    rcases hcut with ⟨rfl, -⟩ | rfl
    · rw [drop_left]
      exact normalizePath_of_closed rfl (getLast?_closed [] elems) (by simp; omega)
    · rw [append_cons full slash (closed elems), drop_left]
      exact hrest
  · obtain ⟨rfl, rfl⟩ : elems = [] ∧ trailing = false := by simpa using hne
    rw [pathOf_nil, if_neg Bool.false_ne_true, append_nil, hmp, ok_bind, drop_length]
    exact hrest

/-- `/ab/c` below the mount point `/ab`. -/
theorem getMountpointRelativePath_oneNode :
    getMountpointRelativePath oneNode [0] [slash, 97, 98, slash, 99] = .ok [slash, 99, slash] :=
  getMountpointRelativePath_append oneNode [0] [[99]] false rfl (by decide)
    (by simp [IsElem, slash]) (by decide)

end Vfs

end DripOS
