import DripOS.Fs.Vfs
import DripOS.Lib.CheckedBuffer

/-!
# The path of a node

`get_full_path` of `src/fs/vfs/vfs.c` with its buffer.  The names are put into the buffer backwards,
from the node to the root, and the buffer is reversed.  For every name it grows by the characters
and a `/`, but a zero is stored behind them.

* `Vfs.getFullPathBuffer_refines` : the buffer holds the path that `Vfs.getFullPath` describes, and
  a write leaves the room of the buffer when it says so;
* `Vfs.getFullPathBuffer_iff` : **every write is inside the size that was asked for** only for the
  root.
-/

namespace DripOS

open List Function

namespace Vfs

open CheckedBuffer (storeAll)
open DripOS.Str (reverse_spec)

/-! ### The model -/

/-- `krealloc` of a buffer, or of null.  What is behind the copied bytes was there before. -/
def kreallocBuffer (junk : Bytes) (old : Option CheckedBuffer) (size : ℕ) : CheckedBuffer where
  bytes := fun i => match old with
    | some b => if i < b.size then b.bytes i else if i < size then 0 else junk i
    | none => if i < size then 0 else junk i
  size := size
  room := blockSize size
  outside := old.elim [] CheckedBuffer.outside

/-- The loop of `get_full_path`. -/
def fullPathBuffer (t : VfsTree) (junk : Bytes) : (curNode : Addr) → (path : Option CheckedBuffer) →
    (pathIndex : ℕ) → Except VfsHalt (Option CheckedBuffer)
  | [], path, _ => .ok path
  | i :: a, path, pathIndex =>
    match t.node (i :: a) with
    | none => .error .fault
    | some node =>
      -- the loop over the characters would begin with 2^64 - 1
      if node.name = [] then .error .fault
      else do
        let path := kreallocBuffer junk path (pathIndex + node.name.length + 1)
        let path ← storeAll .fault (node.name.reverse ++ [slash, 0]) path pathIndex
        fullPathBuffer t junk a (some path) (pathIndex + node.name.length + 1)

/-- `get_full_path`, with the buffer that is returned. -/
def getFullPathBuffer (t : VfsTree) (junk : Bytes) (node : Addr) :
    Except VfsHalt CheckedBuffer := do
  let path := if node = [] then some (kreallocBuffer junk none 1) else none
  match ← fullPathBuffer t junk node path 0 with
  | none => .error .fault
  | some path => Str.reverse .fault path

variable {t : VfsTree} {junk : Bytes} {a : Addr} {b b' : CheckedBuffer} {str name : Str} {i : ℕ}

/-! ### The loop over the ancestors -/

theorem le_blockSize (size : ℕ) : size ≤ blockSize size := by
  unfold blockSize
  omega

/-- The buffer holds a string, and was made for its characters only. -/
def Holds (path : Option CheckedBuffer) (str : Str) : Prop :=
  match path with
  | none => str = []
  | some b => b.HasString str ∧ b.size = str.length

/-- The places behind the end at which bytes were stored. -/
def outside (path : Option CheckedBuffer) : List ℕ := path.elim [] CheckedBuffer.outside

theorem Holds.bytes_krealloc {path : Option CheckedBuffer} (h : Holds path str) (size : ℕ) {k : ℕ}
    (hk : k < str.length) : (kreallocBuffer junk path size).bytes k = str.getD k 0 := by
  cases path with
  | none =>
    rw [h] at hk
    exact absurd hk (Nat.not_lt_zero k)
  | some b =>
    refine (if_pos ?_).trans (h.1.bytes k hk)
    rw [h.2]
    exact hk

/-- One name is put into the buffer, with a zero outside of what was asked for. -/
theorem Holds.storeAll {path : Option CheckedBuffer} (h : Holds path str)
    (hroom : str.length + name.length + 2 ≤ blockSize (str.length + name.length + 1))
    (hb : storeAll VfsHalt.fault (name.reverse ++ [slash, 0])
      (kreallocBuffer junk path (str.length + name.length + 1)) str.length = .ok b) :
    Holds (some b) (str ++ name.reverse ++ [slash]) ∧
      b.outside = outside path ++ [str.length + name.length + 1] := by
  obtain ⟨hsize, hroom', hinside, hframe, houtside⟩ := CheckedBuffer.storeAll_ok hb
  have hlen : (name.reverse ++ [slash, 0]).length = name.length + 2 := by simp
  have hfront : (name.reverse ++ [slash]).length = name.length + 1 := by simp
  have hlen' : (str ++ name.reverse ++ [slash]).length = str.length + name.length + 1 := by
    rw [append_assoc, length_append, hfront, Nat.add_assoc]
  have hsplit : name.reverse ++ [slash, 0] = (name.reverse ++ [slash]) ++ [0] := by simp
  rw [hlen] at hinside hframe houtside
  refine ⟨⟨⟨fun k hk => ?_, ?_, ?_⟩, ?_⟩, ?_⟩
  · rw [hlen'] at hk
    rw [append_assoc]
    by_cases hstr : k < str.length
    · rw [hframe k (Or.inl hstr), h.bytes_krealloc _ hstr, getD_append _ _ _ _ hstr]
    · obtain ⟨m, rfl⟩ := Nat.exists_eq_add_of_le (Nat.le_of_not_lt hstr)
      rw [hinside m (by omega), getD_append_right str _ _ _ (Nat.le_add_right _ m),
        Nat.add_sub_cancel_left, hsplit, getD_append _ _ _ _ (by omega)]
  · rw [hlen', Nat.add_assoc, hinside _ (by omega), hsplit,
      getD_append_right _ _ _ _ (by omega), hfront, Nat.sub_self]
    rfl
  · rw [hlen', hroom']
    exact hroom
  · rw [hsize, hlen']
    rfl
  · -- of the indices that are stored to, only the last one is not below the size
    have hinner : (List.range' str.length (name.length + 1)).filter
        (str.length + name.length + 1 ≤ ·) = [] := by
      rw [filter_eq_nil_iff]
      intro k hk
      rw [mem_range'_1] at hk
      simp only [decide_eq_true_eq]
      omega
    have hlast : [str.length + (name.length + 1)].filter (str.length + name.length + 1 ≤ ·) =
        [str.length + (name.length + 1)] :=
      filter_cons_of_pos (decide_eq_true (Nat.le_of_eq (Nat.add_assoc _ _ _)))
    have hsplit' := filter_append (p := (str.length + name.length + 1 ≤ ·))
      (List.range' str.length (name.length + 1)) [str.length + (name.length + 1)]
    rw [hinner, hlast, ← range'_1_concat] at hsplit'
    rw [houtside, Nat.add_assoc str.length]
    exact congrArg (outside path ++ ·) hsplit'

/-- **The loop does what `fullPathLoop` says**, and stores a byte outside for every name. -/
theorem fullPathBuffer_refines {path : Option CheckedBuffer} (h : Holds path str) :
    match fullPathLoop t a str with
    | .error e => fullPathBuffer t junk a path str.length = .error e
    | .ok str' => ∃ path', fullPathBuffer t junk a path str.length = .ok path' ∧ Holds path' str' ∧
        (outside path').length = (outside path).length + a.length := by
  induction a generalizing path str with
  | nil => exact ⟨path, rfl, h, rfl⟩
  | cons i a ih =>
    unfold fullPathLoop fullPathBuffer
    cases hnode : t.node (i :: a) with
    | none => rfl
    | some node =>
      dsimp only
      by_cases hname : node.name = []
      · rw [if_pos (Or.inl hname), if_pos hname]
      · have hchars : (node.name.reverse ++ [slash, 0]).length = node.name.length + 2 := by simp
        have hsize : (kreallocBuffer junk path (str.length + node.name.length + 1)).room =
          blockSize (str.length + node.name.length + 1) := rfl
        rw [if_neg hname]
        by_cases hroom : blockSize (str.length + node.name.length + 1) <
            str.length + node.name.length + 1 + 1
        · have hblock := le_blockSize (str.length + node.name.length + 1)
          rw [if_pos (Or.inr hroom), CheckedBuffer.storeAll_fault (by omega) (by omega)]
          rfl
        · obtain ⟨b, hb⟩ := @CheckedBuffer.storeAll_returns _ VfsHalt.fault
            (kreallocBuffer junk path (str.length + node.name.length + 1)) str.length
            (node.name.reverse ++ [slash, 0]) (by omega)
          obtain ⟨hholds, houtside⟩ := h.storeAll (by omega) hb
          have hlen : (str ++ node.name.reverse ++ [slash]).length =
              str.length + node.name.length + 1 := by
            simp
            omega
          have hcount : (outside (some b)).length = (outside path).length + 1 := by
            rw [show outside (some b) = b.outside from rfl, houtside]
            simp
          rw [if_neg (not_or.2 ⟨hname, hroom⟩), hb, ok_bind, ← hlen]
          have hrest := ih hholds
          split at hrest
          · exact hrest
          · obtain ⟨path', hloop, hholds', hcount'⟩ := hrest
            exact ⟨path', hloop, hholds', by rw [hcount', hcount, length_cons]; omega⟩

/-! ### The path -/

/-- The names from the root to the node are strings that are not empty. -/
def Named (t : VfsTree) (a : Addr) : Prop := ∀ name ∈ t.chain a, name ≠ [] ∧ 0 ∉ name

instance (t : VfsTree) (a : Addr) : Decidable (Named t a) :=
  inferInstanceAs (Decidable (∀ name ∈ t.chain a, name ≠ [] ∧ 0 ∉ name))

theorem zero_not_mem_pathOf {elems : List Str} (h : ∀ elem ∈ elems, elem ≠ [] ∧ 0 ∉ elem) :
    0 ∉ pathOf elems false := by
  intro hmem
  rw [pathOf, if_neg Bool.false_ne_true, append_nil, mem_flatMap] at hmem
  obtain ⟨elem, helem, hzero⟩ := hmem
  rcases mem_cons.1 hzero with hslash | hzero
  · exact absurd hslash (by decide)
  · exact (h elem helem).2 hzero

/-- The names are put into the buffer from the node to the root. -/
theorem fullPathLoop_ok {str' : Str} (h : fullPathLoop t a str = .ok str') :
    str' = str ++ (pathOf (t.chain a) false).reverse := by
  induction a generalizing str with
  | nil =>
    cases h
    exact (append_nil _).symm
  | cons i a ih =>
    unfold fullPathLoop at h
    unfold NameTree.chain
    cases hnode : t.node (i :: a) with
    | none =>
      rw [hnode] at h
      cases h
    | some node =>
      rw [hnode] at h
      dsimp only at h
      split at h
      · cases h
      · rw [ih h, Option.map_some, Option.toList_some, pathOf_concat, reverse_append, reverse_cons]
        simp only [append_assoc]

theorem getFullPathBuffer_root :
    ∃ b, getFullPathBuffer t junk [] = .ok b ∧ b.HasString [] ∧ b.outside = [] := by
  have hstring : (kreallocBuffer junk none 1).HasString [] :=
    ⟨fun k hk => absurd hk (Nat.not_lt_zero k), rfl, le_blockSize 1⟩
  obtain ⟨bytes, hreverse, hstring'⟩ := reverse_spec hstring not_mem_nil (Nat.zero_le _)
  refine ⟨_, ?_, hstring', rfl⟩
  rw [getFullPathBuffer, if_pos rfl, fullPathBuffer, ok_bind]
  exact hreverse

/-- **The buffer holds the path when `getFullPath` returns it, and otherwise a write leaves the room
of the buffer.** -/
theorem getFullPathBuffer_refines (hnames : Named t a) (ha : a ≠ []) :
    match getFullPath t a with
    | .error e => getFullPathBuffer t junk a = .error e
    | .ok path => path = pathOf (t.chain a) false ∧
        ∃ b, getFullPathBuffer t junk a = .ok b ∧ b.HasString path ∧
          b.outside.length = a.length := by
  have hloop := @fullPathBuffer_refines t junk a [] none rfl
  unfold getFullPath getFullPathBuffer
  rw [if_neg ha]
  dsimp only
  cases hlist : fullPathLoop t a [] with
  | error e =>
    rw [hlist] at hloop
    change fullPathBuffer t junk a none 0 = _ at hloop
    rw [hloop]
    rfl
  | ok str =>
    rw [hlist] at hloop
    obtain ⟨path, hbuffer, hholds, hcount⟩ := hloop
    change fullPathBuffer t junk a none 0 = _ at hbuffer
    have hstr : str = (pathOf (t.chain a) false).reverse := fullPathLoop_ok hlist
    have hpath : str.reverse = pathOf (t.chain a) false := by rw [hstr, reverse_reverse]
    refine ⟨hpath, ?_⟩
    rw [hbuffer, ok_bind]
    cases path with
    | none =>
      have hlen : a.length = 0 := by simpa [outside] using hcount.symm
      exact absurd (length_eq_zero_iff.1 hlen) ha
    | some b =>
      have hzero : 0 ∉ str := by
        rw [hstr, mem_reverse]
        exact zero_not_mem_pathOf hnames
      obtain ⟨bytes, hreverse, hstring⟩ := reverse_spec hholds.1 hzero (Nat.le_of_eq hholds.2.symm)
      refine ⟨_, hreverse, hstring, ?_⟩
      rw [← Nat.zero_add a.length]
      exact hcount

/-- **`get_full_path` returns the path, and stores no byte outside of the size it asked for, only
for the root.** -/
theorem getFullPathBuffer_iff (t : VfsTree) (junk : Bytes) (a : Addr) (hnode : (t.node a).isSome)
    (hnames : Named t a) :
    (∃ b, getFullPathBuffer t junk a = .ok b ∧ b.HasString (pathOf (t.chain a) false) ∧
      b.outside = []) ↔ a = [] := by
  refine ⟨fun ⟨b, hb, _, houtside⟩ => ?_, fun ha => ?_⟩
  · by_contra ha
    have hrefines := @getFullPathBuffer_refines t junk a hnames ha
    cases hpath : getFullPath t a with
    | error e =>
      rw [hpath] at hrefines
      cases hb.symm.trans hrefines
    | ok path =>
      rw [hpath] at hrefines
      obtain ⟨_, b', hb', _, hcount⟩ := hrefines
      obtain rfl := Except.ok.inj (hb.symm.trans hb')
      rw [houtside] at hcount
      exact ha (length_eq_zero_iff.1 hcount.symm)
  · subst ha
    exact getFullPathBuffer_root

/-- A tree with the node `/ab`. -/
def oneNode : VfsTree where
  node
    | [] => some ⟨[], 1, ⟨⟨false⟩, none, none⟩⟩
    | [0] => some ⟨[97, 98], 0, ⟨⟨false⟩, none, none⟩⟩
    | _ => none
  root := rfl
  parent
    | 0, [], _ => ⟨_, rfl, Nat.zero_lt_one⟩
    | 0, _ :: _, h => absurd h Bool.false_ne_true
    | _ + 1, [], h => absurd h Bool.false_ne_true
    | _ + 1, _ :: _, h => absurd h Bool.false_ne_true

/-- The root is the only node whose path is put into its buffer. -/
theorem getFullPathBuffer_iff_oneNode :
    (∃ b, getFullPathBuffer oneNode (fun _ => 0) [] = .ok b ∧ b.HasString [] ∧ b.outside = []) ∧
      ¬ ∃ b, getFullPathBuffer oneNode (fun _ => 0) [0] = .ok b ∧ b.HasString [47, 97, 98] ∧
        b.outside = [] :=
  ⟨(getFullPathBuffer_iff oneNode (fun _ => 0) [] rfl (by decide)).2 rfl,
    fun h => absurd ((getFullPathBuffer_iff oneNode (fun _ => 0) [0] rfl (by decide)).1 h)
      (by decide)⟩

/-- The path `/ab` takes four bytes with its zero, and three are asked for. -/
theorem getFullPathBuffer_zero_outside :
    (getFullPathBuffer oneNode (fun _ => 0) [0]).map (fun b => (b.size, b.outside)) =
      .ok (3, [3]) := by
  decide +kernel

end Vfs

end DripOS
