import DripOS.Lib.CheckedBuffer

/-!
# Strings

The functions of `src/klibc/string.c` that the file systems use.  A string is the list of its
characters, or is in a buffer with a zero behind it.  An access outside of it is the error that is
given.

* `getPathElem_append` : a path is cut at its last `/`;
* `Str.reverse_spec` : a string is turned around inside of its buffer.
-/

namespace DripOS

open List Function

/-- The character `/`. -/
def slash : UInt8 := 0x2F

/-! ### Comparing -/

/-- `strcmp` of the characters `cs`, none of them null, with the string in `b` is zero. -/
def strEq : (cs : List UInt8) → (b : Bytes) → Bool
  | [], b => b 0 == 0
  | c :: cs, b => b 0 == c && strEq cs fun i => b (i + 1)

/-- The characters of a string and the null character behind them. -/
theorem strEq_of_forall {cs : List UInt8} {b : Bytes}
    (h : ∀ i < cs.length + 1, b i = cs.getD i 0) : strEq cs b = true := by
  induction cs generalizing b with
  | nil =>
    rw [strEq, h 0 (Nat.succ_pos _)]
    rfl
  | cons c cs ih =>
    rw [strEq, Bool.and_eq_true]
    refine ⟨?_, ih fun i hi => h (i + 1) (Nat.succ_lt_succ hi)⟩
    rw [h 0 (Nat.succ_pos _)]
    exact beq_self_eq_true c

/-- The string in a buffer is unique. -/
theorem strEq_unique {cs cs' : List UInt8} {b : Bytes} (hcs : 0 ∉ cs) (hcs' : 0 ∉ cs')
    (h : strEq cs b = true) (h' : strEq cs' b = true) : cs = cs' := by
  induction cs generalizing cs' b with
  | nil =>
    cases cs' with
    | nil => rfl
    | cons c' cs' =>
      simp only [strEq, Bool.and_eq_true, beq_iff_eq] at h h'
      exact absurd (h ▸ h'.1 ▸ mem_cons_self) hcs'
  | cons c cs ih =>
    cases cs' with
    | nil =>
      simp only [strEq, Bool.and_eq_true, beq_iff_eq] at h h'
      exact absurd (h' ▸ h.1 ▸ mem_cons_self) hcs
    | cons c' cs' =>
      simp only [strEq, Bool.and_eq_true, beq_iff_eq] at h h'
      rw [← h.1, ← h'.1, ih (fun hc => hcs (mem_cons_of_mem c hc))
        (fun hc => hcs' (mem_cons_of_mem c' hc)) h.2 h'.2]

/-! ### Paths -/

/-- `path_join`. -/
def pathJoin (dst src : List UInt8) : List UInt8 :=
  if dst.getLast? ≠ some slash ∧ src.head? ≠ some slash then dst ++ [slash] ++ src else dst ++ src

variable {ε : Type}

section

variable (fault : ε) (path : List UInt8)

/-- The position of the last `/`. -/
def lastSlash : Except ε ℕ :=
  match (List.range path.length).reverse.find? fun i => path[i]? == some slash with
  | some i => .ok i
  | none => .error fault

/-- `path_remove_elem`. -/
def pathRemoveElem : Except ε (List UInt8) := do
  let i ← lastSlash fault path
  pure (path.take (if i = 0 then 1 else i))

/-- `ptr_to_end_path_elem`. -/
def ptrToEndPathElem : Except ε (List UInt8) := do
  let i ← lastSlash fault path
  pure (path.drop (i + 1))

/-- `get_path_elem`: the element that is copied to `output`, and what is left of the path. -/
def getPathElem : Except ε (List UInt8 × List UInt8) := do
  let i ← lastSlash fault path
  pure (path.drop (i + 1), path.take (if i = 0 then 1 else i))

variable {name : List UInt8} (hname : slash ∉ name)
include hname

theorem lastSlash_append : lastSlash fault (path ++ slash :: name) = .ok path.length := by
  have hlen : (path ++ slash :: name).length = path.length + 1 + name.length := by simp; omega
  have hbehind : ((List.range name.length).map (path.length + 1 + ·)).reverse.find?
      (fun i => (path ++ slash :: name)[i]? == some slash) = none := by
    rw [List.find?_eq_none]
    intro i hi hslash
    obtain ⟨j, -, rfl⟩ := mem_map.1 (mem_reverse.1 hi)
    rw [beq_iff_eq, Nat.add_assoc, List.getElem?_append_right (by omega), Nat.add_sub_cancel_left,
      Nat.add_comm, List.getElem?_cons_succ] at hslash
    exact hname (mem_of_getElem? hslash)
  unfold lastSlash
  rw [hlen, range_add, range_succ, reverse_append, List.find?_append, hbehind,
    reverse_append, reverse_singleton]
  simp

/-- The `/` of the root directory is kept. -/
theorem getPathElem_append : getPathElem fault (path ++ slash :: name) =
    .ok (name, if path = [] then [slash] else path) := by
  rw [getPathElem, lastSlash_append fault path hname]
  show Except.ok _ = _
  by_cases hpath : path = []
  · rw [hpath]
    rfl
  · rw [if_neg hpath, if_neg (mt length_eq_zero_iff.1 hpath), take_left]
    simp [drop_append]

theorem pathRemoveElem_append : pathRemoveElem fault (path ++ slash :: name) =
    .ok (if path = [] then [slash] else path) := by
  have h := getPathElem_append fault path hname
  rw [getPathElem, lastSlash_append fault path hname] at h
  rw [pathRemoveElem, lastSlash_append fault path hname]
  exact congrArg Except.ok (congrArg Prod.snd (Except.ok.inj h))

theorem ptrToEndPathElem_append : ptrToEndPathElem fault (path ++ slash :: name) = .ok name := by
  rw [ptrToEndPathElem, lastSlash_append fault path hname]
  simp [drop_append]

end

/-! ### Turning a string around -/

namespace Str

/-- The loop of `reverse`. -/
def reverseLoop (fault : ε) (str : CheckedBuffer) (startIndex endIndex : ℕ) :
    Except ε CheckedBuffer :=
  if startIndex < endIndex then do
    let tempBuffer := str.bytes startIndex
    let str ← str.store fault startIndex (str.bytes endIndex)
    let str ← str.store fault endIndex tempBuffer
    reverseLoop fault str (startIndex + 1) (endIndex - 1)
  else .ok str
termination_by endIndex - startIndex

/-- `reverse`. -/
def reverse (fault : ε) (str : CheckedBuffer) : Except ε CheckedBuffer := do
  let len ← str.strlen fault
  reverseLoop fault str 0 (if len > 0 then len - 1 else 0)

variable {fault : ε} {b : CheckedBuffer} {str : List UInt8}

/-- A swap in the buffer. -/
theorem reverseLoop_of_lt {s e : ℕ} (hse : s < e) (hroom : e < b.room) (hsize : e < b.size) :
    reverseLoop fault b s e = reverseLoop fault
      { b with bytes := update (update b.bytes s (b.bytes e)) e (b.bytes s) }
      (s + 1) (e - 1) := by
  have hsecond := @CheckedBuffer.store_of_lt _ fault
    { b with bytes := update b.bytes s (b.bytes e) } e (b.bytes s) hroom hsize
  rw [reverseLoop, if_pos hse, CheckedBuffer.store_of_lt (hse.trans hroom) (hse.trans hsize),
    ok_bind, hsecond, ok_bind]

/-- The part of the buffer from `s` to `e` is reversed. -/
theorem reverseLoop_spec {s e : ℕ} (hroom : e < b.room) (hsize : e < b.size) :
    ∃ bytes, reverseLoop fault b s e = .ok { b with bytes := bytes } ∧
      ∀ j, bytes j = if s ≤ j ∧ j ≤ e then b.bytes (s + e - j) else b.bytes j := by
  induction hlen : e - s using Nat.strong_induction_on generalizing b s e with
  | _ n ih =>
    by_cases hse : s < e
    · rw [reverseLoop_of_lt hse hroom hsize]
      obtain ⟨bytes, hloop, hbytes⟩ := @ih (e - 1 - (s + 1)) (by omega)
        { b with bytes := update (update b.bytes s (b.bytes e)) e (b.bytes s) }
        (s + 1) (e - 1) (by dsimp only; omega) (by dsimp only; omega) rfl
      refine ⟨bytes, hloop, fun j => ?_⟩
      rw [hbytes j]
      dsimp only
      have hsum : s + 1 + (e - 1) = s + e := by omega
      rw [hsum]
      by_cases hje : j = e
      · rw [hje, if_neg (by omega), if_pos (by omega), update_self, Nat.add_sub_cancel]
      · by_cases hjs : j = s
        · rw [hjs, if_neg (by omega), if_pos (by omega), update_of_ne (by omega),
            update_self, Nat.add_sub_cancel_left]
        · by_cases hin : s ≤ j ∧ j ≤ e
          · rw [if_pos (by omega), if_pos hin, update_of_ne (by omega), update_of_ne (by omega)]
          · rw [if_neg (by omega), if_neg hin, update_of_ne hje, update_of_ne hjs]
    · refine ⟨b.bytes, by rw [reverseLoop, if_neg hse], fun j => ?_⟩
      split_ifs with hin
      · congr 1
        omega
      · rfl

/-- **`reverse` turns the string around**, and stores inside of it only. -/
theorem reverse_spec (h : b.HasString str) (hstr : 0 ∉ str) (hsize : str.length ≤ b.size) :
    ∃ bytes, reverse fault b = .ok { b with bytes := bytes } ∧
      CheckedBuffer.HasString { b with bytes := bytes } str.reverse := by
  unfold reverse
  rw [h.strlen hstr, ok_bind]
  rcases eq_nil_or_concat' str with rfl | ⟨front, last, rfl⟩
  · refine ⟨b.bytes, ?_, h⟩
    rw [reverseLoop]
    rfl
  · generalize hfull : front ++ [last] = full at h hsize
    have hpos : 0 < full.length := by simp [← hfull]
    have hroom := h.room
    obtain ⟨bytes, hloop, hbytes⟩ := @reverseLoop_spec _ fault b 0 (full.length - 1) (by omega)
      (by omega)
    refine ⟨bytes, by rw [if_pos hpos]; exact hloop, fun k hk => ?_, ?_, ?_⟩
    · rw [length_reverse] at hk
      dsimp only
      rw [hbytes, if_pos (by omega), h.bytes _ (by omega), getD_eq_getElem _ _ (by omega),
        getD_eq_getElem _ _ (by simpa using hk), getElem_reverse]
      simp only [Nat.zero_add]
    · rw [length_reverse]
      dsimp only
      rw [hbytes, if_neg (by omega)]
      exact h.zero
    · rw [length_reverse]
      exact hroom

end Str

end DripOS
