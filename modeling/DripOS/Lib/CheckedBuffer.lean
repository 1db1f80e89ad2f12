import DripOS.Lib.Bytes
import DripOS.Lib.Outcome
import Mathlib.Data.List.GetD

/-!
# Buffers that record writes behind their end

A buffer has a size that was asked for, and there may be room behind it: a write there is recorded,
and a write behind the room is a fault.

* `CheckedBuffer.storeAll_ok`, `CheckedBuffer.storeAll_returns`, `CheckedBuffer.storeAll_fault` :
  several bytes are stored;
* `CheckedBuffer.HasString` : a string with its zero is at the beginning;
* `CheckedBuffer.HasString.strlen`, `CheckedBuffer.HasString.unique` : its length is found, and
  there is no other.
-/

namespace DripOS

open List Function

/-- A buffer. -/
structure CheckedBuffer where
  bytes : Bytes
  /-- The size that was asked for. -/
  size : ℕ
  /-- The bytes that are there. -/
  room : ℕ
  /-- The places behind `size` at which bytes were stored. -/
  outside : List ℕ

namespace CheckedBuffer

variable {ε : Type} {fault : ε} {b b' : CheckedBuffer} {i j n : ℕ} {ch : UInt8}
  {chars : List UInt8}

/-- Stores a byte. -/
def store (fault : ε) (b : CheckedBuffer) (i : ℕ) (ch : UInt8) : Except ε CheckedBuffer :=
  if i < b.room then
    .ok { b with
      bytes := update b.bytes i ch
      outside := if i < b.size then b.outside else b.outside ++ [i] }
  else .error fault

/-- Stores bytes one after the other. -/
def storeAll (fault : ε) : (chars : List UInt8) → (b : CheckedBuffer) → (i : ℕ) →
    Except ε CheckedBuffer
  | [], b, _ => .ok b
  | ch :: chars, b, i => do
    let b ← b.store fault i ch
    storeAll fault chars b (i + 1)

/-- The length of the string in the buffer. -/
def strlen (fault : ε) (b : CheckedBuffer) : Except ε ℕ :=
  match (List.range b.room).find? fun i => b.bytes i = 0 with
  | some n => .ok n
  | none => .error fault

/-! ### Storing -/

theorem store_of_lt (hroom : i < b.room) (hsize : i < b.size) :
    b.store fault i ch = .ok { b with bytes := update b.bytes i ch } := by
  unfold store
  rw [if_pos hroom, if_pos hsize]

theorem store_ok (h : b.store fault i ch = .ok b') :
    b' = { b with
      bytes := update b.bytes i ch
      outside := if i < b.size then b.outside else b.outside ++ [i] } := by
  unfold store at h
  by_cases hroom : i < b.room
  · rw [if_pos hroom] at h
    exact (Except.ok.inj h).symm
  · rw [if_neg hroom] at h
    cases h

/-- What several stores do. -/
structure Stored (b : CheckedBuffer) (i : ℕ) (chars : List UInt8) (b' : CheckedBuffer) : Prop where
  size : b'.size = b.size
  room : b'.room = b.room
  inside : ∀ k, k < chars.length → b'.bytes (i + k) = chars.getD k 0
  frame : ∀ j, j < i ∨ i + chars.length ≤ j → b'.bytes j = b.bytes j
  outside : b'.outside = b.outside ++ (List.range' i chars.length).filter (b.size ≤ ·)

theorem storeAll_ok (h : storeAll fault chars b i = .ok b') : Stored b i chars b' := by
  induction chars generalizing b i with
  | nil =>
    cases h
    exact ⟨rfl, rfl, fun k hk => absurd hk (Nat.not_lt_zero k), fun _ _ => rfl, by simp⟩
  | cons ch chars ih =>
    obtain ⟨b1, h1, h⟩ := bind_eq_ok.1 h
    obtain rfl := store_ok h1
    obtain ⟨hsize, hroom', hinside, hframe, houtside⟩ := ih h
    dsimp only at hsize hroom' hframe houtside
    refine ⟨hsize, hroom', fun k hk => ?_, fun j hj => ?_, ?_⟩
    · cases k with
      | zero =>
        rw [Nat.add_zero, hframe i (Or.inl (Nat.lt_succ_self i)), update_self]
        rfl
      | succ k =>
        have hshift : i + (k + 1) = i + 1 + k := by omega
        rw [hshift, hinside k (by simpa using hk)]
        rfl
    · rw [length_cons] at hj
      rw [hframe j (by omega), update_of_ne (by omega)]
    · rw [houtside, length_cons, range'_succ, filter_cons]
      by_cases hlt : i < b.size
      · rw [if_pos hlt, if_neg (by simpa using hlt)]
      · rw [if_neg hlt, if_pos (by simpa using hlt), append_assoc]
        rfl

/-- Stores in the room of the buffer return. -/
theorem storeAll_returns (h : i + chars.length ≤ b.room) :
    ∃ b', storeAll fault chars b i = .ok b' := by
  induction chars generalizing b i with
  | nil => exact ⟨b, rfl⟩
  | cons ch chars ih =>
    rw [length_cons] at h
    unfold storeAll store
    rw [if_pos (by omega), ok_bind]
    exact ih (by dsimp only; omega)

/-- A store behind the room of the buffer is a fault. -/
theorem storeAll_fault (hi : i ≤ b.room) (h : b.room < i + chars.length) :
    storeAll fault chars b i = .error fault := by
  induction chars generalizing b i with
  | nil => exact absurd h (Nat.not_lt.2 hi)
  | cons ch chars ih =>
    rw [length_cons] at h
    unfold storeAll store
    rcases Nat.lt_or_ge i b.room with hlt | hge
    · rw [if_pos hlt, ok_bind]
      exact ih hlt (by dsimp only; omega)
    · rw [if_neg (Nat.not_lt.2 hge)]
      rfl

/-! ### Strings -/

/-- A string with its zero is at the beginning of the buffer. -/
structure HasString (b : CheckedBuffer) (str : List UInt8) : Prop where
  bytes : ∀ k, k < str.length → b.bytes k = str.getD k 0
  zero : b.bytes str.length = 0
  room : str.length < b.room

theorem HasString.strlen {str : List UInt8} (h : b.HasString str) (hstr : 0 ∉ str) :
    b.strlen fault = .ok str.length := by
  have hfind : (List.range b.room).find? (fun i => b.bytes i = 0) = some str.length := by
    rw [List.find?_range_eq_some]
    refine ⟨by simpa using h.zero, mem_range.2 h.room, fun k hk => ?_⟩
    rw [h.bytes k hk, getD_eq_getElem _ _ hk]
    have hne : str[k] ≠ 0 := fun heq => hstr (heq ▸ getElem_mem hk)
    simpa using hne
  unfold CheckedBuffer.strlen
  rw [hfind]

theorem HasString.toList {str : List UInt8} (h : b.HasString str) :
    b.bytes.toList str.length = str := by
  refine ext_getElem (by simp [Bytes.toList]) fun i hi hi' => ?_
  simp only [Bytes.toList, getElem_map, getElem_range]
  rw [h.bytes i hi', getD_eq_getElem]

theorem HasString.unique {str str' : List UInt8} (h : b.HasString str) (h' : b.HasString str')
    (hstr : 0 ∉ str) (hstr' : 0 ∉ str') : str = str' := by
  have hlen : str.length = str'.length :=
    Except.ok.inj ((h.strlen hstr).symm.trans (@HasString.strlen Unit () _ _ h' hstr'))
  rw [← h.toList, ← h'.toList, hlen]

end CheckedBuffer

end DripOS
