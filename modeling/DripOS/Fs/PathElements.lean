import DripOS.Fs.Vfs

/-!
# The elements of a path

What `split_path_elements` of `src/fs/vfs/vfs.c` returns.  Its elements are to be the nonempty parts
between the `/`.  It starts a string when a part begins, unless it is at the last character: a last
part of one character is appended to the string before it, and an empty last part fails an assertion
if the part before it is empty, too.  Other empty parts are kept.

* `Vfs.splitLoop_eq` : what the function returns, in terms of the parts;
* `Vfs.splitPathElements_iff` : **when it returns the elements of the path**, and when it undoes
  `join_split_path`.
-/

namespace DripOS

open List

namespace Vfs

variable {path part : Str} {output parts names : List Str}

/-- The parts of a path that are not empty. -/
def pathElements (path : Str) : List Str := (path.splitOn slash).filter (· ≠ [])

/-- The path without its first `/`. -/
def relative (path : Str) : Str := if path.head? = some slash then path.tail else path

/-- What `split_path_elements` returns for the parts `parts` and `last`. -/
def splitResult (parts : List Str) : (last : Str) → Except VfsHalt (List Str)
  | [] => if parts.getLast? = some [] then .error .assertion else .ok parts
  | [ch] =>
    match appendToLast parts ch with
    | none => .error .fault
    | some output => .ok output
  | last => .ok (parts ++ [last])

/-! ### The loop -/

/-- Paths part by part. -/
theorem part_induction {P : Str → Prop} (last : ∀ part, slash ∉ part → P part)
    (cons : ∀ part path, slash ∉ part → P path → P (part ++ slash :: path)) (path : Str) :
    P path := by
  induction hlen : path.length using Nat.strong_induction_on generalizing path with
  | _ n ih =>
    by_cases hmem : slash ∈ path
    · obtain ⟨part, rest, rfl, hpart⟩ := eq_append_cons_of_mem hmem
      refine cons part rest hpart (ih rest.length ?_ rest rfl)
      rw [← hlen]
      simp
      omega
    · exact last path hmem

/-- A part that a `/` follows becomes a string, unless it is empty and the path ends. -/
theorem splitLoop_part (hpart : slash ∉ part) (path : Str) (output : List Str) :
    splitLoop (part ++ slash :: path) output true =
      if part = [] ∧ path = [] then .error .assertion
      else splitLoop path (output ++ [part]) true := by
  by_cases hne : part = []
  · subst hne
    rw [nil_append, splitLoop]
    by_cases hpath : path = []
    · simp [hpath]
    · simp [hpath]
  · have hpos := length_pos_iff.2 hne
    rw [splitLoop_start ⟨hne, hpart⟩ _ (by simp; omega), splitLoop]
    simp [hne]

/-- The last part. -/
theorem splitLoop_last (hpart : slash ∉ part) (hout : part = [] → output.getLast? ≠ some []) :
    splitLoop part output true = splitResult output part := by
  match part, hpart, hout with
  | [], _, hout =>
    unfold splitResult
    rw [if_neg (hout rfl)]
    rfl
  | [ch], hpart, _ =>
    have hch : ch ≠ slash := fun h => hpart (by simp [h])
    rw [splitLoop]
    simp only [ne_eq, not_true, and_false, if_false, if_neg hch, splitResult]
    cases appendToLast output ch <;> rfl
  | ch :: ch' :: part, hpart, _ =>
    have hstart := splitLoop_start ⟨cons_ne_nil ch (ch' :: part), hpart⟩ [] (by simp) output
    rw [append_nil] at hstart
    exact hstart

/-- **What the loop returns**, in terms of the parts of the path. -/
theorem splitLoop_eq (path : Str) (output : List Str)
    (hout : path = [] → output.getLast? ≠ some []) :
    ∃ parts last, path.splitOn slash = parts ++ [last] ∧
      splitLoop path output true = splitResult (output ++ parts) last := by
  induction path using part_induction generalizing output with
  | last part hpart =>
    refine ⟨[], part, splitOn_eq_singleton hpart, ?_⟩
    rw [append_nil]
    exact splitLoop_last hpart hout
  | cons part path hpart ih =>
    rw [splitLoop_part hpart, splitOn_append_cons_self_of_not_mem hpart]
    by_cases hend : part = [] ∧ path = []
    · obtain ⟨rfl, rfl⟩ := hend
      exact ⟨[[]], [], rfl, by simp [splitResult]⟩
    · rw [if_neg hend]
      have hout' : path = [] → (output ++ [part]).getLast? ≠ some [] := fun hpath => by
        simpa using fun hempty => hend ⟨hempty, hpath⟩
      obtain ⟨parts, last, hparts, hloop⟩ := ih (output ++ [part]) hout'
      refine ⟨part :: parts, last, by rw [hparts]; rfl, ?_⟩
      rw [hloop, append_assoc]
      rfl

/-! ### The elements -/

/-- No part but the last one is empty, and the last one does not have one character; or it does, and
of the parts before it exactly the last one is empty. -/
def SplitsWell (path : Str) : Prop :=
  ∃ parts last, (relative path).splitOn slash = parts ++ [last] ∧
    (last.length ≠ 1 ∧ [] ∉ parts ∨
      last.length = 1 ∧ parts.getLast? = some [] ∧ [] ∉ parts.dropLast)

theorem filter_ne_nil_eq_self : parts.filter (· ≠ []) = parts ↔ [] ∉ parts := by
  rw [filter_eq_self]
  simp only [decide_eq_true_eq]
  exact ⟨fun h hmem => h [] hmem rfl, fun h part hpart hnil => h (hnil ▸ hpart)⟩

/-- The first `/` does not matter for the elements. -/
theorem pathElements_relative (path : Str) : pathElements (relative path) = pathElements path := by
  unfold relative
  split_ifs with h
  · obtain ⟨rest, rfl⟩ := List.head?_eq_some_iff.1 h
    have hsplit : (slash :: rest).splitOn slash = [] :: rest.splitOn slash :=
      splitOn_append_cons_self_of_not_mem (not_mem_nil (a := slash)) rest
    rw [pathElements, pathElements, hsplit, tail_cons, filter_cons_of_neg (by simp)]
  · rfl

/-- The strings are the nonempty parts exactly under this condition. -/
theorem splitResult_eq_iff {last : Str} :
    splitResult parts last = .ok ((parts ++ [last]).filter (· ≠ [])) ↔
      (last.length ≠ 1 ∧ [] ∉ parts ∨
        last.length = 1 ∧ parts.getLast? = some [] ∧ [] ∉ parts.dropLast) := by
  rw [filter_append]
  match last with
  | [] =>
    have hlast : ([[]] : List Str).filter (· ≠ []) = [] := rfl
    rw [hlast, append_nil, splitResult]
    split_ifs with hempty
    · have hmem : [] ∈ parts := List.mem_of_getLast? hempty
      simp [hmem]
    · rw [Except.ok.injEq, eq_comm, filter_ne_nil_eq_self]
      simp
  | [ch] =>
    have hlast : ([[ch]] : List Str).filter (· ≠ []) = [[ch]] := rfl
    rw [hlast, splitResult]
    rcases eq_nil_or_concat' parts with rfl | ⟨front, prev, rfl⟩
    · simp [appendToLast]
    · have happ : appendToLast (front ++ [prev]) ch = some (front ++ [prev ++ [ch]]) := by
        simp [appendToLast]
      rw [happ]
      rw [filter_append, Except.ok.injEq, dropLast_concat, List.getLast?_concat]
      by_cases hprev : prev = []
      · -- the character goes to the empty string, where it belongs
        subst hprev
        have hnil : ([[]] : List Str).filter (· ≠ []) = [] := rfl
        rw [hnil, append_nil, nil_append, append_left_inj, eq_comm, filter_ne_nil_eq_self]
        simp
      · refine iff_of_false (fun heq => hprev ?_) (by simp [hprev])
        simpa using (append_inj' heq rfl).2
  | ch :: ch' :: last =>
    have hlast : [ch :: ch' :: last].filter (· ≠ []) = [ch :: ch' :: last] := rfl
    have hresult : splitResult parts (ch :: ch' :: last) = .ok (parts ++ [ch :: ch' :: last]) := rfl
    rw [hlast, hresult, Except.ok.injEq, append_left_inj, eq_comm, filter_ne_nil_eq_self]
    simp

theorem joinSplitPath_eq (names : List Str) : joinSplitPath names = pathOf names false := by
  have hfold : ∀ ret : Str, names.foldl (fun ret elem => ret ++ [slash] ++ elem) ret =
      ret ++ names.flatMap (fun elem => slash :: elem) := by
    induction names with
    | nil => exact fun ret => (append_nil ret).symm
    | cons name names ih =>
      intro ret
      rw [foldl_cons, ih, flatMap_cons]
      simp only [append_assoc, cons_append, nil_append]
  simpa [joinSplitPath, pathOf] using hfold []

/-- `split_path_elements` after `join_split_path`. -/
theorem splitPathElements_joinSplitPath (hne : names ≠ []) (hnames : ∀ name ∈ names, IsElem name) :
    splitPathElements (joinSplitPath names) = match mergeLast names with
      | none => .error .fault
      | some l => .ok l := by
  obtain ⟨name, names, rfl⟩ := exists_cons_of_ne_nil hne
  rw [joinSplitPath_eq, splitPathElements, pathOf_cons, List.head?_cons, if_pos rfl, tail_cons,
    splitLoop_pathOf (hnames name mem_cons_self)
      (fun e he => hnames e (mem_cons_of_mem _ he))]
  rfl

/-- A short last name is lost. -/
theorem mergeLast_eq_self_iff : mergeLast names = some names ↔ ¬ EndsShort names := by
  refine ⟨fun h hshort => ?_, mergeLast_of_not_endsShort⟩
  rcases endsShort_cases hshort with ⟨ch, -, hmerge⟩ | ⟨front, prev, ch, rfl, hmerge⟩
  · rw [hmerge] at h
    cases h
  · rw [hmerge] at h
    have hlen := congrArg List.length (Option.some.inj h)
    simp at hlen

/-- **When `split_path_elements` returns the elements of the path.**  It undoes `join_split_path`
exactly if the last name does not have one character. -/
theorem splitPathElements_iff (path : Str) :
    (splitPathElements path = .ok (pathElements path) ↔ SplitsWell path) ∧
    ∀ names : List Str, names ≠ [] → (∀ name ∈ names, IsElem name) →
      (splitPathElements (joinSplitPath names) = .ok names ↔ ¬ EndsShort names) := by
  refine ⟨?_, fun names hne hnames => ?_⟩
  · obtain ⟨parts, last, hparts, hloop⟩ := splitLoop_eq (relative path) [] (by simp)
    have helems : pathElements path = (parts ++ [last]).filter (· ≠ []) := by
      rw [← pathElements_relative, pathElements, hparts]
    have hsplit : splitPathElements path = splitResult parts last := hloop
    rw [hsplit, helems, splitResult_eq_iff]
    constructor
    · exact fun h => ⟨parts, last, hparts, h⟩
    · rintro ⟨parts', last', hparts', h⟩
      obtain ⟨rfl, hlast⟩ := append_inj' (hparts.symm.trans hparts') rfl
      rwa [singleton_inj.1 hlast]
  · rw [splitPathElements_joinSplitPath hne hnames, ← mergeLast_eq_self_iff]
    cases mergeLast names with
    | none => simp
    | some l => simp

/-- A path with two elements is split, and joined again. -/
theorem splitPathElements_iff_twoNames :
    (splitPathElements [slash, 97, slash, 98, 99] = .ok (pathElements [slash, 97, slash, 98, 99]) ↔
      SplitsWell [slash, 97, slash, 98, 99]) ∧
    (splitPathElements (joinSplitPath [[97], [98, 99]]) = .ok [[97], [98, 99]] ↔
      ¬ EndsShort [[97], [98, 99]]) :=
  ⟨(splitPathElements_iff _).1, (splitPathElements_iff []).2 [[97], [98, 99]] (by simp)
    (by unfold IsElem; decide)⟩

/-- **Paths that are not split into their elements**: `/a` is a fault, `//` fails an assertion,
`/a/b` gives one element and `/a//bc` gives three. -/
theorem splitPathElements_wrong :
    splitPathElements [slash, 97] = .error .fault ∧
      splitPathElements [slash, slash] = .error .assertion ∧
      splitPathElements [slash, 97, slash, 98] = .ok [[97, 98]] ∧
      pathElements [slash, 97, slash, 98] = [[97], [98]] ∧
      splitPathElements [slash, 97, slash, slash, 98, 99] = .ok [[97], [], [98, 99]] ∧
      pathElements [slash, 97, slash, slash, 98, 99] = [[97], [98, 99]] := by
  decide

end Vfs

end DripOS
