import DripOS.Klibc.Errno
import DripOS.Klibc.Strings
import DripOS.Lib.NameTree

/-!
# The tree of the virtual file system

The functions of `src/fs/vfs/vfs.c` that open a file by its path.  A pointer to a node is its
address in a `NameTree`, and its parent the rest of the address.  A path is a list of bytes.

`split_path_elements` starts an element only when a character follows, so that a last element of one
character is appended to the one before it (`mergeLast`); when there is none, it writes in front of
a null array.  `create_missing_nodes_from_path` has its own loop, but looks up what it has seen with
the other one, and cuts a `/` off the path of its caller.

`file_exists` and `create_handle` of a file system are functions of the path.  Writing past the end
of a heap buffer is a fault.

* `getNodeFromPath_pathOf` : which names `get_node_from_path` looks up;
* `missingLoop_pathOf` : which nodes `create_missing_nodes_from_path` adds, element by element.
-/

namespace DripOS

open List

namespace Vfs

/-! ### The model -/

/-- Why a function of the VFS does not return. -/
inductive VfsHalt where
  /-- An assertion fails. -/
  | assertion
  /-- An access through a null pointer or outside of a buffer. -/
  | fault
  deriving DecidableEq, Repr

/-- A C string, without the zero at its end. -/
abbrev Str := List UInt8

/-- `O_CREAT`. -/
def oCreat : ℕ := 0x10

/-- `vfs_ops_t`: only whether `open` is set is used here. -/
structure VfsOps where
  openSet : Bool
  deriving DecidableEq, Repr

/-- `vfs_fs_descriptor_t`. -/
structure VfsFsDescriptor where
  fsOps : VfsOps
  fileExists : Str → Bool

/-- The other fields of `vfs_node_t`. -/
structure VfsNode where
  ops : VfsOps
  createHandle : Option (Str → ℕ → ℤ)
  filesystemDescriptor : Option VfsFsDescriptor

/-- The nodes below `root_node`. -/
abbrev VfsTree := NameTree Str VfsNode

/-- The address of a node. -/
abbrev Addr := List ℕ

/-- The bytes of a block of `kmalloc` before the unmapped page. -/
def blockSize (size : ℕ) : ℕ := (size + 0xfff) / 0x1000 * 0x1000

/-- Append a character to the last string of `output`. -/
def appendToLast (output : List Str) (ch : UInt8) : Option (List Str) :=
  match output.getLast? with
  | none => none
  | some last => some (output.dropLast ++ [last ++ [ch]])

/-- The loop of `split_path_elements`. -/
def splitLoop : (path : Str) → (output : List Str) → (startingNew : Bool) →
    Except VfsHalt (List Str)
  | [], output, _ => .ok output
  | ch :: path, output, startingNew =>
    let st := if startingNew ∧ path ≠ [] then (output ++ [[]], false) else (output, startingNew)
    if ch = slash then
      if st.2 then .error .assertion else splitLoop path st.1 true
    else
      match appendToLast st.1 ch with
      -- `output[-1]` of a null array
      | none => .error .fault
      | some output => splitLoop path output st.2

/-- `split_path_elements`. -/
def splitPathElements (path : Str) : Except VfsHalt (List Str) :=
  splitLoop (if path.head? = some slash then path.tail else path) [] true

/-- `get_node_from_path`. -/
def getNodeFromPath (t : VfsTree) (path : Str) : Except VfsHalt (Option Addr) :=
  if path = [slash] then .ok (some [])
  else do
    let splitList ← splitPathElements path
    .ok (t.find [] splitList)

/-- `vfs_new_node`. -/
def vfsNewNode (name : Str) (ops : VfsOps) : NameTree.Node Str VfsNode :=
  ⟨name, 10, ⟨ops, none, none⟩⟩

/-- Add a child unless `search_node_name` finds one. -/
def addMissing (t : VfsTree) (curNode : Addr) (name : Str) (ops : VfsOps) : VfsTree :=
  if (t.search curNode name).isSome then t else t.addChild curNode (vfsNewNode name ops)

/-- The loop of `create_missing_nodes_from_path`; `i` is the place of the next character. -/
def missingLoop (ops : VfsOps) : (path tempBuffer : Str) → (i : ℕ) → (currentFullPath : Str) →
    VfsTree → Except VfsHalt VfsTree
  | [], tempBuffer, _, currentFullPath, t => do
    match ← getNodeFromPath t currentFullPath with
    | none => .ok t
    | some curNode => .ok (addMissing t curNode tempBuffer ops)
  | ch :: path, tempBuffer, i, currentFullPath, t =>
    if ch = slash then do
      match ← getNodeFromPath t currentFullPath with
      | none => .ok t
      | some curNode =>
        missingLoop ops path tempBuffer 0 (pathJoin currentFullPath tempBuffer)
          (addMissing t curNode tempBuffer ops)
    else missingLoop ops path (tempBuffer.take i ++ [ch]) (i + 1) currentFullPath t

/-- `create_missing_nodes_from_path`, with the path as it is afterwards.  Each part of the path with
its zero fits into the buffers. -/
def createMissingNodesFromPath (t : VfsTree) (path : Str) (ops : VfsOps) :
    Except VfsHalt (Str × VfsTree) :=
  let lead := if path.head? = some slash then [slash] else []
  let path := if path.head? = some slash then path.tail else path
  -- the caller's string is changed
  let path := if path.getLast? = some slash then path.dropLast else path
  (missingLoop ops path [] 0 [slash] t).map fun t => (lead ++ path, t)

/-- `join_split_path`. -/
def joinSplitPath (path : List Str) : Str := path.foldl (fun ret elem => ret ++ [slash] ++ elem) []

/-- The fields of the node at `a`. -/
def nodeData (t : VfsTree) (a : Addr) : Option VfsNode := (t.node a).map NameTree.Node.data

/-- The file system that is mounted at `a`. -/
def descriptor (t : VfsTree) (a : Addr) : Option VfsFsDescriptor :=
  (nodeData t a).bind VfsNode.filesystemDescriptor

/-- `get_mountpoint_of_node`. -/
def getMountpointOfNode (t : VfsTree) : Addr → Addr
  | [] => []
  | i :: a => if (descriptor t (i :: a)).isSome then i :: a else getMountpointOfNode t a

/-- The loop of `get_mountpoint_of_path`, over the first `i` elements. -/
def mountpointLoop (t : VfsTree) (pathElements : List Str) : ℕ → Except VfsHalt Addr
  | 0 => .ok []
  | i + 1 => do
    match ← getNodeFromPath t (joinSplitPath (pathElements.take (i + 1))) with
    | some node => .ok (getMountpointOfNode t node)
    | none => mountpointLoop t pathElements i

/-- `get_mountpoint_of_path`. -/
def getMountpointOfPath (t : VfsTree) (path : Str) : Except VfsHalt Addr := do
  let pathElements ← splitPathElements path
  mountpointLoop t pathElements pathElements.length

/-- The loop of `get_full_path`, on the reversed names. -/
def fullPathLoop (t : VfsTree) : (curNode : Addr) → (path : Str) → Except VfsHalt Str
  | [], path => .ok path
  | i :: a, path =>
    match t.node (i :: a) with
    | none => .error .fault
    | some node =>
      -- the block has no room for the zero that is stored behind the `/`
      let size := path.length + node.name.length + 1
      if node.name = [] ∨ blockSize size < size + 1 then .error .fault
      else fullPathLoop t a (path ++ node.name.reverse ++ [slash])

/-- `get_full_path`. -/
def getFullPath (t : VfsTree) (node : Addr) : Except VfsHalt Str :=
  (fullPathLoop t node []).map List.reverse

/-- `normalize_path`, with a buffer of 4097 bytes. -/
def normalizePath (path : Str) : Except VfsHalt Str :=
  let normalized := (if path.head? ≠ some slash then [slash] else []) ++ path
  let normalized :=
    if normalized.getLast? ≠ some slash then normalized ++ [slash] else normalized
  if normalized.length + 1 ≤ blockSize 4097 then .ok normalized else .error .fault

/-- `get_mountpoint_relative_path`. -/
def getMountpointRelativePath (t : VfsTree) (mountpoint : Addr) (path : Str) :
    Except VfsHalt Str := do
  let mountpointPath ← getFullPath t mountpoint
  let mpNormalized ← normalizePath mountpointPath
  let pathNormalized ← normalizePath path
  normalizePath (pathNormalized.drop mpNormalized.length)

/-- The last part of `vfs_open`: the nodes of a file are added. -/
def openCreated (t : VfsTree) (name : Str) (ops : VfsOps) :
    Except VfsHalt (Except ℤ Addr × VfsTree) := do
  let created ← createMissingNodesFromPath t name ops
  match ← getNodeFromPath created.2 created.1 with
  | none => .error .assertion
  | some node =>
    -- the call of `node->ops.open`
    if (nodeData created.2 node).any fun n => n.ops.openSet then .ok (.ok node, created.2)
    else .error .fault

/-- `vfs_open`: the node, or `*err` for a null pointer. -/
def vfsOpen (t : VfsTree) (name : Str) (mode : ℕ) : Except VfsHalt (Except ℤ Addr × VfsTree) := do
  match ← getNodeFromPath t name with
  | some node =>
    if mode &&& oCreat ≠ 0 then .ok (.error Errno.eexist.code, t) else .ok (.ok node, t)
  | none =>
    let mountpointNode ← getMountpointOfPath t name
    let relativePath ← getMountpointRelativePath t mountpointNode name
    let relativePath := relativePath.dropLast
    match descriptor t mountpointNode with
    | none => .error .fault
    | some fs =>
      if ¬ fs.fileExists relativePath ∧ mode &&& oCreat = 0 then
        .ok (.error Errno.enoent.code, t)
      else if mode &&& oCreat ≠ 0 then
        match (nodeData t mountpointNode).bind VfsNode.createHandle with
        | none => .ok (.error Errno.eperm.code, t)
        | some createHandle =>
          let createErr := createHandle relativePath mode
          if createErr ≠ 0 then .ok (.error (-createErr), t) else openCreated t name fs.fsOps
      else openCreated t name fs.fsOps

/-! ### Paths and their elements -/

/-- The path with the given elements, with a `/` at the end or not. -/
def pathOf (elems : List Str) (trailing : Bool) : Str :=
  elems.flatMap (fun elem => slash :: elem) ++ if trailing then [slash] else []

/-- What may stand between two `/`. -/
def IsElem (elem : Str) : Prop := elem ≠ [] ∧ slash ∉ elem

/-- The last element has one character. -/
def EndsShort (elems : List Str) : Prop := ∃ ch, elems.getLast? = some [ch]

/-- The elements that `split_path_elements` finds in a path without `/` at the end. -/
def mergeLast (elems : List Str) : Option (List Str) :=
  match elems.getLast? with
  | some [ch] => appendToLast elems.dropLast ch
  | _ => some elems

section Elements

variable {elem : Str} {elems : List Str} {trailing : Bool}

theorem pathOf_nil : pathOf [] trailing = if trailing then [slash] else [] := rfl

theorem pathOf_cons :
    pathOf (elem :: elems) trailing = slash :: (elem ++ pathOf elems trailing) := by
  simp [pathOf]

theorem pathOf_concat : pathOf (elems ++ [elem]) false = pathOf elems false ++ slash :: elem := by
  simp [pathOf]

/-- A path without `/` at its end ends with a character of an element. -/
theorem getLast?_append_elem (he : IsElem elem) (front : Str) :
    (front ++ elem).getLast? ≠ some slash := by
  obtain ⟨init, ch, rfl⟩ := (eq_nil_or_concat' elem).resolve_left he.1
  have hch : ch ≠ slash := fun h => he.2 (by simp [h])
  simp [hch]

theorem mergeLast_of_not_endsShort (h : ¬ EndsShort elems) : mergeLast elems = some elems := by
  rw [mergeLast]
  split
  · rename_i ch hch
    exact absurd ⟨ch, hch⟩ h
  · rfl

theorem mergeLast_concat_single (ch : UInt8) :
    mergeLast (elems ++ [[ch]]) = appendToLast elems ch := by
  simp [mergeLast]

theorem endsShort_concat : EndsShort (elems ++ [elem]) ↔ elem.length = 1 := by
  simp [EndsShort, length_eq_one_iff]

/-- A short last element is merged with the one before it. -/
theorem endsShort_cases (h : EndsShort elems) :
    (∃ ch, elems = [[ch]] ∧ mergeLast elems = none) ∨
      ∃ front prev ch, elems = front ++ [prev, [ch]] ∧
        mergeLast elems = some (front ++ [prev ++ [ch]]) := by
  obtain ⟨ch, hch⟩ := h
  obtain ⟨init, rfl⟩ := List.getLast?_eq_some_iff.1 hch
  rw [mergeLast_concat_single]
  rcases eq_nil_or_concat' init with rfl | ⟨front, prev, rfl⟩
  · exact Or.inl ⟨ch, rfl, rfl⟩
  · exact Or.inr ⟨front, prev, ch, by simp, by simp [appendToLast]⟩

/-- The characters of an element go to the last string. -/
theorem splitLoop_elem (hslash : slash ∉ elem) (rest : Str) (output : List Str) (cur : Str) :
    splitLoop (elem ++ rest) (output ++ [cur]) false =
      splitLoop rest (output ++ [cur ++ elem]) false := by
  induction elem generalizing cur with
  | nil => rw [nil_append, append_nil]
  | cons ch elem ih =>
    have hch : ch ≠ slash := fun h => hslash (h ▸ mem_cons_self)
    have happ : appendToLast (output ++ [cur]) ch = some (output ++ [cur ++ [ch]]) := by
      simp [appendToLast]
    rw [cons_append, splitLoop]
    simp only [Bool.false_eq_true, false_and, if_false, if_neg hch, happ]
    rw [ih (fun h => hslash (mem_cons_of_mem ch h)), append_assoc, singleton_append]

/-- An element is started when a character follows. -/
theorem splitLoop_start (he : IsElem elem) (rest : Str) (hlen : 2 ≤ (elem ++ rest).length)
    (output : List Str) :
    splitLoop (elem ++ rest) output true = splitLoop rest (output ++ [elem]) false := by
  obtain ⟨hne, hslash⟩ := he
  obtain ⟨ch, tail, rfl⟩ := exists_cons_of_ne_nil hne
  have hch : ch ≠ slash := fun h => hslash (h ▸ mem_cons_self)
  have hrest : tail ++ rest ≠ [] := by
    rw [← length_pos_iff]
    simp at hlen ⊢
    omega
  have happ : appendToLast (output ++ [[]]) ch = some (output ++ [[ch]]) := by
    simp [appendToLast]
  rw [cons_append, splitLoop]
  simp only [true_and, if_pos hrest, if_neg hch, happ]
  rw [splitLoop_elem (fun h => hslash (mem_cons_of_mem ch h)), singleton_append]

/-- **The elements that `split_path_elements` finds.** -/
theorem splitLoop_pathOf (he : IsElem elem) (hes : ∀ e ∈ elems, IsElem e) (output : List Str) :
    splitLoop (elem ++ pathOf elems trailing) output true =
      if trailing then .ok (output ++ elem :: elems)
      else match mergeLast (output ++ elem :: elems) with
        | none => .error .fault
        | some l => .ok l := by
  induction elems generalizing elem output with
  | nil =>
    rw [pathOf_nil]
    cases trailing with
    | true =>
      have hpos := length_pos_iff.2 he.1
      rw [if_pos rfl, splitLoop_start he _ (by simp; omega)]
      rfl
    | false =>
      rw [if_neg Bool.false_ne_true, if_neg Bool.false_ne_true, append_nil]
      by_cases hlen : elem.length = 1
      · -- the only character goes to the string before
        obtain ⟨ch, rfl⟩ := length_eq_one_iff.1 hlen
        have hch : ch ≠ slash := fun h => he.2 (h ▸ mem_cons_self)
        rw [mergeLast_concat_single, splitLoop]
        simp only [ne_eq, not_true, and_false, if_false, if_neg hch]
        cases appendToLast output ch <;> rfl
      · have hpos := length_pos_iff.2 he.1
        rw [mergeLast_of_not_endsShort (mt endsShort_concat.1 hlen)]
        have hstart := splitLoop_start he [] (by rw [append_nil]; omega) output
        rwa [append_nil] at hstart
  | cons next elems ih =>
    have hpos := length_pos_iff.2 he.1
    rw [pathOf_cons, splitLoop_start he _ (by simp; omega), splitLoop]
    simp only [Bool.false_eq_true, false_and, if_false, if_true]
    rw [ih (hes _ mem_cons_self) (fun e h => hes e (mem_cons_of_mem _ h)),
      append_assoc, singleton_append]

/-- **The names that `get_node_from_path` looks up.** -/
theorem getNodeFromPath_pathOf (t : VfsTree) (hne : elems ≠ []) (hes : ∀ e ∈ elems, IsElem e) :
    getNodeFromPath t (pathOf elems trailing) =
      if trailing then .ok (t.find [] elems)
      else match mergeLast elems with
        | none => .error .fault
        | some l => .ok (t.find [] l) := by
  obtain ⟨elem, elems, rfl⟩ := exists_cons_of_ne_nil hne
  have he := hes elem mem_cons_self
  have hlong : pathOf (elem :: elems) trailing ≠ [slash] := by
    rw [pathOf_cons]
    intro h
    exact he.1 (append_eq_nil_iff.1 (List.cons.inj h).2).1
  rw [getNodeFromPath, if_neg hlong, splitPathElements, pathOf_cons, List.head?_cons, if_pos rfl,
    tail_cons, splitLoop_pathOf he (fun e h => hes e (mem_cons_of_mem _ h)) [],
    nil_append]
  cases trailing with
  | true => rfl
  | false =>
    cases mergeLast (elem :: elems) <;> rfl

/-! ### Adding the missing nodes -/

/-- The part of the path that `create_missing_nodes_from_path` has seen. -/
def fullPath (done : List Str) : Str := if done = [] then [slash] else pathOf done false

/-- Its loop, element by element: `done` was seen, and `rest` is to come. -/
def createLoop (ops : VfsOps) : (done rest : List Str) → VfsTree → Except VfsHalt VfsTree
  | _, [], t => .ok t
  | done, elem :: rest, t =>
    match mergeLast done with
    | none => .error .fault
    | some names =>
      match t.find [] names with
      | none => .ok t
      | some curNode => createLoop ops (done ++ [elem]) rest (addMissing t curNode elem ops)

theorem getNodeFromPath_fullPath (t : VfsTree) {done : List Str} (hes : ∀ e ∈ done, IsElem e) :
    getNodeFromPath t (fullPath done) = match mergeLast done with
      | none => .error .fault
      | some l => .ok (t.find [] l) := by
  rw [fullPath]
  split_ifs with hdone
  · rw [hdone]
    rfl
  · rw [getNodeFromPath_pathOf t hdone hes, if_neg Bool.false_ne_true]

theorem pathJoin_fullPath {done : List Str} (hes : ∀ e ∈ done, IsElem e) (he : IsElem elem) :
    pathJoin (fullPath done) elem = fullPath (done ++ [elem]) := by
  have hhead : elem.head? ≠ some slash := fun h => he.2 (List.mem_of_mem_head? h)
  have hnext : fullPath (done ++ [elem]) = pathOf done false ++ slash :: elem :=
    (if_neg (by simp)).trans pathOf_concat
  rw [hnext]
  rcases eq_nil_or_concat' done with rfl | ⟨init, last, rfl⟩
  · rfl
  · -- the last character is one of an element
    have hlast := hes last (by simp)
    have hend : (fullPath (init ++ [last])).getLast? ≠ some slash := by
      rw [fullPath, if_neg (by simp), pathOf_concat, append_cons]
      exact getLast?_append_elem hlast _
    rw [pathJoin, if_pos ⟨hend, hhead⟩, fullPath, if_neg (by simp), append_assoc, singleton_append]

theorem missingLoop_elem (ops : VfsOps) (hslash : slash ∉ elem) (rest : Str) {temp : Str} {i : ℕ}
    (hi : temp.length ≤ i) (full : Str) (t : VfsTree) :
    missingLoop ops (elem ++ rest) temp i full t =
      missingLoop ops rest (temp ++ elem) (i + elem.length) full t := by
  induction elem generalizing temp i with
  | nil => rw [nil_append, append_nil, length_nil, Nat.add_zero]
  | cons ch elem ih =>
    have hch : ch ≠ slash := fun h => hslash (h ▸ mem_cons_self)
    rw [cons_append, missingLoop, if_neg hch, take_of_length_le hi,
      ih (fun h => hslash (mem_cons_of_mem ch h)) (by simpa using hi), append_assoc,
      singleton_append, length_cons, Nat.add_assoc, Nat.add_comm 1]

/-- The first character of an element goes to the start of the buffer. -/
theorem missingLoop_start (ops : VfsOps) (he : IsElem elem) (rest temp full : Str) (t : VfsTree) :
    missingLoop ops (elem ++ rest) temp 0 full t =
      missingLoop ops rest elem elem.length full t := by
  obtain ⟨hne, hslash⟩ := he
  obtain ⟨ch, tail, rfl⟩ := exists_cons_of_ne_nil hne
  have hch : ch ≠ slash := fun h => hslash (h ▸ mem_cons_self)
  rw [cons_append, missingLoop, if_neg hch, take_zero, nil_append,
    missingLoop_elem ops (fun h => hslash (mem_cons_of_mem ch h)) rest (by simp),
    singleton_append, length_cons, Nat.zero_add, Nat.add_comm]

/-- **The nodes that `create_missing_nodes_from_path` adds.** -/
theorem missingLoop_pathOf (ops : VfsOps) (done : List Str) (hdone : ∀ e ∈ done, IsElem e)
    (he : IsElem elem) (hes : ∀ e ∈ elems, IsElem e) (temp : Str) (t : VfsTree) :
    missingLoop ops (elem ++ pathOf elems false) temp 0 (fullPath done) t =
      createLoop ops done (elem :: elems) t := by
  induction elems generalizing elem done temp t with
  | nil =>
    rw [missingLoop_start ops he]
    simp only [pathOf_nil, Bool.false_eq_true, if_false, missingLoop, createLoop,
      getNodeFromPath_fullPath t hdone]
    cases mergeLast done with
    | none => rfl
    | some names =>
      cases t.find [] names <;> rfl
  | cons next elems ih =>
    have hnext := hes next mem_cons_self
    rw [missingLoop_start ops he, pathOf_cons, missingLoop, if_pos rfl, createLoop,
      getNodeFromPath_fullPath t hdone]
    cases mergeLast done with
    | none => rfl
    | some names =>
      simp only [ok_bind]
      cases t.find [] names with
      | none => rfl
      | some curNode =>
        have hdone' : ∀ e ∈ done ++ [elem], IsElem e := by
          simp only [mem_append, mem_singleton]
          rintro e (h | rfl)
          · exact hdone e h
          · exact he
        simp only [pathJoin_fullPath hdone he]
        exact ih _ hdone' hnext (fun e h => hes e (mem_cons_of_mem _ h)) _ _

theorem createMissingNodesFromPath_pathOf (t : VfsTree) (ops : VfsOps) (hne : elems ≠ [])
    (hes : ∀ e ∈ elems, IsElem e) :
    createMissingNodesFromPath t (pathOf elems trailing) ops =
      (createLoop ops [] elems t).map fun t => (pathOf elems false, t) := by
  obtain ⟨elem, elems, rfl⟩ := exists_cons_of_ne_nil hne
  have he := hes elem mem_cons_self
  have hstrip : (if (elem ++ pathOf elems trailing).getLast? = some slash
      then (elem ++ pathOf elems trailing).dropLast else elem ++ pathOf elems trailing) =
      elem ++ pathOf elems false := by
    cases trailing with
    | true =>
      have hsnoc : elem ++ pathOf elems true = elem ++ pathOf elems false ++ [slash] := by
        simp [pathOf]
      rw [hsnoc, if_pos (by simp), dropLast_concat]
    | false =>
      refine if_neg ?_
      rcases eq_nil_or_concat' elems with rfl | ⟨init, last, rfl⟩
      · simpa [pathOf] using getLast?_append_elem he []
      · rw [pathOf_concat, append_cons, ← append_assoc]
        exact getLast?_append_elem (hes last (by simp)) _
  rw [createMissingNodesFromPath, pathOf_cons]
  simp only [List.head?_cons, if_true, tail_cons, hstrip]
  have hloop := missingLoop_pathOf ops [] (by simp) he
    (fun e h => hes e (mem_cons_of_mem _ h)) [] t
  rw [fullPath, if_pos rfl] at hloop
  rw [hloop, pathOf_cons]
  rfl

end Elements

end Vfs

end DripOS
