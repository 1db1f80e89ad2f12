import DripOS.Mm.Access

/-!
# Filling and copying memory

`memset` and `memcpy` of `src/klibc/string.c` store one byte after the other through the page tables
of the current address space.  The addresses are recorded.

* `Machine.storeLoop_spec` : **stores to mapped bytes that are no tables fill these bytes**, and
  nothing else;
* `Machine.mem_log_of_storeLoop` : the loop stores at every address of its range, or stops.
-/

namespace DripOS

open List

namespace Machine

/-! ### The functions -/

/-- Read the byte at the address `p`, with `base` the value of `cr3`. -/
def loadByte (s : Machine) (base p : ℕ) : Except Halt UInt8 :=
  match s.toPhys (base / 0x1000) p with
  | some a => .ok (s.bytes a)
  | none => .error .fault

/-- Write the byte at the address `p`. -/
def storeByte (s : Machine) (base p : ℕ) (x : UInt8) : Except Halt Machine :=
  match s.toPhys (base / 0x1000) p with
  | some a => .ok (s.writeBytes a 1 fun _ => x)
  | none => .error .fault

/-- The loop of `memset` and `memcpy`; the list has the addresses at which bytes were stored. -/
def storeLoop (base dst count : ℕ) (byte : ℕ → Machine → Except Halt UInt8) :
    Machine × List ℕ → Except Halt (Machine × List ℕ) :=
  forRange count fun i st => do
    let x ← byte i st.1
    let s ← st.1.storeByte base ((dst + i) % 2 ^ 64) x
    pure (s, st.2 ++ [(dst + i) % 2 ^ 64])

/-- `memset`. -/
def memset (base dst : ℕ) (data : UInt8) (count : ℕ) :
    Machine × List ℕ → Except Halt (Machine × List ℕ) :=
  storeLoop base dst count fun _ _ => .ok data

/-- `memcpy`. -/
def memcpy (base src dst count : ℕ) : Machine × List ℕ → Except Halt (Machine × List ℕ) :=
  storeLoop base dst count fun i s => s.loadByte base ((src + i) % 2 ^ 64)

/-! ### What the loop does -/

/-- The `n` bytes of physical memory from `x` on were stored. -/
structure StoredBytes (x n : ℕ) (v : Bytes) (s s' : Machine) : Prop where
  pmm : s'.pmm = s.pmm
  bytes : s'.bytes = s.bytes.patch x n v
  frame : ∀ f, f * 0x1000 + 0x1000 ≤ x ∨ x + n ≤ f * 0x1000 → s'.mem f = s.mem f

variable {s s' : Machine} {r x n dst : ℕ} {v : Bytes} {log log' : List ℕ}
  {byte : ℕ → Machine → Except Halt UInt8}

theorem StoredBytes.refl (s : Machine) : StoredBytes x 0 v s s where
  pmm := rfl
  bytes := by
    funext i
    exact (if_neg (by omega)).symm
  frame _ _ := rfl

/-- One more byte. -/
theorem StoredBytes.writeBytes (h : StoredBytes x n v s s') :
    StoredBytes x (n + 1) v s (s'.writeBytes (x + n) 1 fun _ => v n) where
  pmm := pmm_writeBytes.trans h.pmm
  bytes := by
    rw [bytes_writeBytes, h.bytes]
    funext i
    unfold Bytes.patch
    by_cases hi : i = x + n
    · rw [if_pos (by omega), if_pos (by omega), hi, Nat.add_sub_cancel_left]
    · rw [if_neg (by omega)]
      exact ite_congr (propext (by omega)) (fun _ => rfl) fun _ => rfl
  frame f hf := (mem_writeBytes (by omega)).trans (h.frame f (by omega))

/-- **Stores to mapped bytes, none of which is in a table.** -/
theorem storeLoop_spec (hmapped : ∀ i < n, s.toPhys r ((dst + i) % 2 ^ 64) = some (x + i))
    (htables : ∀ t, IsPageTable s.mem r t → t * 0x1000 + 0x1000 ≤ x ∨ x + n ≤ t * 0x1000)
    (hbyte : ∀ i s', i < n → StoredBytes x i v s s' → byte i s' = .ok (v i)) :
    ∃ s', storeLoop (r * 0x1000) dst n byte (s, log) =
      .ok (s', log ++ (List.range n).map fun i => (dst + i) % 2 ^ 64) ∧ StoredBytes x n v s s' := by
  induction n with
  | zero =>
    refine ⟨s, ?_, StoredBytes.refl s⟩
    rw [range_zero, map_nil, append_nil]
    rfl
  | succ n ih =>
    obtain ⟨s1, hloop, hstored⟩ := ih (fun i hi => hmapped i (by omega))
      (fun t ht => by have := htables t ht; omega) fun i s' hi => hbyte i s' (by omega)
    have hphys : s1.toPhys r ((dst + n) % 2 ^ 64) = some (x + n) := by
      refine (toPhys_congr fun t ht => hstored.frame t ?_).trans (hmapped n (by omega))
      have := htables t ht
      omega
    refine ⟨_, ?_, hstored.writeBytes⟩
    unfold storeLoop at hloop ⊢
    rw [forRange_succ, hloop, ok_bind]
    rw [hbyte n s1 (by omega) hstored, ok_bind, storeByte, Nat.mul_div_cancel _ (by decide), hphys,
      range_succ, map_append, ← append_assoc]
    rfl

/-- The loop stores at every address of its range. -/
theorem mem_log_of_storeLoop {base : ℕ} (h : storeLoop base dst n byte (s, log) = .ok (s', log'))
    {i : ℕ} (hi : i < n) : (dst + i) % 2 ^ 64 ∈ log' := by
  have hinv := forRange_induct
    (fun k (st : Machine × List ℕ) => ∀ i < k, (dst + i) % 2 ^ 64 ∈ st.2)
    (fun i hi => absurd hi (Nat.not_lt_zero i)) (fun k st st' _ hst hbody i hik => ?_) h
  · exact hinv i hi
  · obtain ⟨y, _, hbody⟩ := bind_eq_ok.1 hbody
    obtain ⟨s1, _, hbody⟩ := bind_eq_ok.1 hbody
    cases hbody
    rw [mem_append]
    rcases Nat.lt_succ_iff_lt_or_eq.1 hik with hlt | rfl
    · exact Or.inl (hst i hlt)
    · exact Or.inr (mem_singleton_self _)

end Machine

end DripOS
