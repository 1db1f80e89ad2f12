import DripOS.Proc.Ipc

/-!
# The connection of a client to a server

The first halves of `write_ipc_server` and `read_ipc_server` of `src/proc/ipc.c`, up to the point at
which the client has `connect_lock`.  A history says what the call sees at its first access to the
shared memory, at its second one, and so on.  The two functions are the same but for the test in the
loop that waits for the server to listen: `write_ipc_server` gives up while the time is *not* over.

* `IpcConnect.agree_iff` : **the two functions take the same decision**, and in time, exactly if the
  server listens at the first or second look, and the deadline for the lock does not overflow.
-/

namespace DripOS

namespace IpcConnect

open Ipc (ipcConnectTimeoutMs)

/-- What a call sees when it accesses the shared memory. -/
structure Moment where
  listening : Bool
  /-- `connect_lock` is taken by another client. -/
  connectLock : Bool
  globalTicks : UInt64
  deriving DecidableEq, Repr

/-- What the call sees at its accesses, one after the other. -/
abbrev History := ℕ → Moment

/-- How the attempt to connect ends. -/
inductive Connection where
  /-- The client has `connect_lock`, and goes on with the transfer. -/
  | connected
  /-- `IPC_NOT_LISTENING` is returned. -/
  | notListening
  /-- `IPC_CONNECTION_TIMEOUT` is returned. -/
  | connectionTimeout
  deriving DecidableEq, Repr

section Definitions

variable (h : History)

/-- The loop that waits for `listening`, from the access `k` on: whether the server listens, and the
next access. -/
def waitListening (giveUp : UInt64 → UInt64 → Bool) (startTick : UInt64) :
    (fuel k : ℕ) → Option (Bool × ℕ)
  | 0, _ => none
  | fuel + 1, k =>
    if (h k).listening then some (true, k + 1)
    else if giveUp startTick (h (k + 1)).globalTicks then some (false, k + 2)
    else waitListening giveUp startTick fuel (k + 2)

/-- The loop that attempts to take the lock, from the access `k` on: whether the client has it, and
the next access. -/
def waitLock (startTicks : UInt64) : (fuel k : ℕ) → Option (Bool × ℕ)
  | 0, _ => none
  | fuel + 1, k =>
    if startTicks + ipcConnectTimeoutMs > (h k).globalTicks then
      if (h (k + 1)).connectLock then waitLock startTicks fuel (k + 2) else some (true, k + 2)
    else some (false, k + 1)

/-- The attempt to take the lock, from the access `k` on. -/
def takeLock (fuel k : ℕ) : Option (Connection × ℕ) :=
  if (h k).connectLock then do
    let (gotLock, k) ← waitLock h (h (k + 1)).globalTicks fuel (k + 2)
    some (if gotLock then .connected else .connectionTimeout, k)
  else some (.connected, k + 1)

end Definitions

/-- The attempt to connect to a port, which may have no handle. -/
def connect (giveUp : UInt64 → UInt64 → Bool) :
    (handle : Option History) → (fuel : ℕ) → Option (Connection × ℕ)
  | none, _ => some (.notListening, 0)
  | some h, fuel =>
    if (h 0).listening then takeLock h fuel 1
    else do
      let (listening, k) ← waitListening h giveUp (h 1).globalTicks fuel 2
      if listening then takeLock h fuel k else some (.notListening, k)

/-- `write_ipc_server`, up to the transfer. -/
def writeIpcServer : (handle : Option History) → (fuel : ℕ) → Option (Connection × ℕ) :=
  connect fun startTick globalTicks => startTick + ipcConnectTimeoutMs > globalTicks

/-- `read_ipc_server`, up to the transfer. -/
def readIpcServer : (handle : Option History) → (fuel : ℕ) → Option (Connection × ℕ) :=
  connect fun startTick globalTicks => startTick + ipcConnectTimeoutMs ≤ globalTicks

/-! ### What the functions are for -/

/-- The timeout has passed between two accesses. -/
def Passed (h : History) (i j : ℕ) : Prop :=
  (h i).globalTicks.toNat + ipcConnectTimeoutMs.toNat ≤ (h j).globalTicks.toNat

/-- The call that ended before access `k` has waited long enough, and the server never listened. -/
def WaitedForServer (handle : Option History) (k : ℕ) : Prop :=
  ∃ h, handle = some h ∧ Passed h 1 (k - 1) ∧ ∀ j, 2 * j < k → (h (2 * j)).listening = false

/-- The lock is tried first at the access `i`, after the first look at which the server listens. -/
def FirstAttempt (h : History) (i : ℕ) : Prop :=
  ∃ m, i = 2 * m + 1 ∧ (h (2 * m)).listening ∧ ∀ j < m, (h (2 * j)).listening = false

/-- The call that ended before access `k` has waited long enough, and the lock was always taken. -/
def WaitedForLock (handle : Option History) (k : ℕ) : Prop :=
  ∃ h i, handle = some h ∧ FirstAttempt h i ∧ Passed h (i + 1) (k - 1) ∧ (h i).connectLock ∧
    ∀ j, i + 3 + 2 * j < k → (h (i + 3 + 2 * j)).connectLock

/-- The two functions end in the same way, and give up only after they have waited. -/
structure Agree (handle : Option History) : Prop where
  same : ∀ c, (∃ fuel k, writeIpcServer handle fuel = some (c, k)) ↔
    ∃ fuel k, readIpcServer handle fuel = some (c, k)
  notListening : ∀ fuel k, writeIpcServer handle fuel = some (.notListening, k) ∨
    readIpcServer handle fuel = some (.notListening, k) → WaitedForServer handle k
  connectionTimeout : ∀ fuel k, writeIpcServer handle fuel = some (.connectionTimeout, k) ∨
    readIpcServer handle fuel = some (.connectionTimeout, k) → WaitedForLock handle k

/-- The lock is free at the access `i`, or the deadline has 64 bits. -/
def LockInTime (h : History) (i : ℕ) : Prop :=
  (h i).connectLock = false ∨ (h (i + 1)).globalTicks.toNat + ipcConnectTimeoutMs.toNat < 2 ^ 64

/-- The time does not run backwards. -/
def Forward (h : History) : Prop := ∀ i j, i ≤ j → (h i).globalTicks ≤ (h j).globalTicks

variable {h : History} {giveUp giveUp' : UInt64 → UInt64 → Bool} {start : UInt64}
  {fuel k k' i : ℕ} {c : Connection}

/-! ### The lock -/

theorem toNat_add_timeout (hlt : start.toNat + ipcConnectTimeoutMs.toNat < 2 ^ 64) :
    (start + ipcConnectTimeoutMs).toNat = start.toNat + ipcConnectTimeoutMs.toNat := by
  rw [UInt64.toNat_add, Nat.mod_eq_of_lt hlt]

/-- The loop gives up when the time is over, and the lock was always taken. -/
theorem waitLock_false (hw : waitLock h start fuel k = some (false, k')) :
    k < k' ∧ start + ipcConnectTimeoutMs ≤ (h (k' - 1)).globalTicks ∧
      ∀ j, k + 1 + 2 * j < k' → (h (k + 1 + 2 * j)).connectLock := by
  induction fuel generalizing k with
  | zero => cases hw
  | succ fuel ih =>
    unfold waitLock at hw
    split_ifs at hw with htime hlock
    · obtain ⟨hlt, hover, hlocked⟩ := ih hw
      refine ⟨by omega, hover, fun j hj => ?_⟩
      cases j with
      | zero => exact hlock
      | succ j =>
        have hshift : k + 1 + 2 * (j + 1) = k + 2 + 1 + 2 * j := by omega
        rw [hshift] at hj ⊢
        exact hlocked j hj
    · cases hw
    · cases hw
      refine ⟨Nat.lt_succ_self k, UInt64.not_lt.1 htime, fun j hj => ?_⟩
      omega

/-- The attempt to take the lock ends with the lock, or with a timeout. -/
theorem takeLock_cases (ht : takeLock h fuel i = some (c, k)) :
    c = .connected ∨ c = .connectionTimeout ∧ (h i).connectLock ∧
      waitLock h (h (i + 1)).globalTicks fuel (i + 2) = some (false, k) := by
  unfold takeLock at ht
  split_ifs at ht with hlock
  · obtain ⟨⟨gotLock, k'⟩, hwait, ht⟩ := Option.bind_eq_some_iff.1 ht
    cases ht
    cases gotLock with
    | true => exact Or.inl rfl
    | false => exact Or.inr ⟨rfl, hlock, hwait⟩
  · cases ht
    exact Or.inl rfl

/-- The attempt gives up only after the timeout. -/
theorem waitedForLock_of_takeLock (hfirst : FirstAttempt h i) (hin : LockInTime h i)
    (ht : takeLock h fuel i = some (.connectionTimeout, k)) : WaitedForLock (some h) k := by
  rcases takeLock_cases ht with hc | ⟨-, hlock, hwait⟩
  · cases hc
  · obtain ⟨hlt, hover, hlocked⟩ := waitLock_false hwait
    have hdeadline := toNat_add_timeout (hin.resolve_left (by simp [hlock]))
    refine ⟨h, i, rfl, hfirst, ?_, hlock, fun j hj => ?_⟩
    · rw [UInt64.le_iff_toNat_le, hdeadline] at hover
      exact hover
    · have hshift : i + 3 + 2 * j = i + 2 + 1 + 2 * j := by omega
      exact hlocked j hj

/-- When the deadline overflows, the attempt gives up at once. -/
theorem takeLock_of_overflow (hforward : Forward h) (hin : ¬ LockInTime h i) :
    takeLock h 1 i = some (.connectionTimeout, i + 3) ∧ ¬ Passed h (i + 1) (i + 2) := by
  obtain ⟨hlock, hover⟩ := not_or.1 hin
  have hstart := UInt64.le_iff_toNat_le.1 (hforward (i + 1) (i + 2) (by omega))
  have hlt := (h (i + 2)).globalTicks.toNat_lt
  have htimeout : ipcConnectTimeoutMs.toNat = 50 := rfl
  have htest : ¬ (h (i + 1)).globalTicks + ipcConnectTimeoutMs > (h (i + 2)).globalTicks := by
    rw [gt_iff_lt, UInt64.lt_iff_toNat_lt, UInt64.toNat_add, htimeout]
    omega
  refine ⟨?_, ?_⟩
  · unfold takeLock waitLock
    rw [if_pos (by simpa using hlock), if_neg htest]
    rfl
  · unfold Passed
    omega

/-! ### The server -/

/-- The access at which the lock is tried first. -/
def lockAccess (h : History) : ℕ := if (h 0).listening then 1 else 3

theorem FirstAttempt.unique {i' : ℕ} (hi : FirstAttempt h i) (hi' : FirstAttempt h i') :
    i = i' := by
  obtain ⟨m, rfl, hlisten, hbefore⟩ := hi
  obtain ⟨m', rfl, hlisten', hbefore'⟩ := hi'
  rcases Nat.lt_trichotomy m m' with hlt | rfl | hlt
  · rw [hbefore' m hlt] at hlisten
    cases hlisten
  · rfl
  · rw [hbefore m' hlt] at hlisten'
    cases hlisten'

theorem firstAttempt_lockAccess (hlisten : (h 0).listening ∨ (h 2).listening) :
    FirstAttempt h (lockAccess h) := by
  unfold lockAccess
  split_ifs with h0
  · exact ⟨0, rfl, h0, fun j hj => absurd hj (Nat.not_lt_zero j)⟩
  · refine ⟨1, rfl, hlisten.resolve_left h0, fun j hj => ?_⟩
    rw [Nat.lt_one_iff.1 hj]
    exact Bool.eq_false_iff.2 h0

theorem connect_some (giveUp : UInt64 → UInt64 → Bool) (h : History) (fuel : ℕ) :
    connect giveUp (some h) fuel =
      if (h 0).listening then takeLock h fuel 1
      else (waitListening h giveUp (h 1).globalTicks fuel 2).bind fun r =>
        if r.1 then takeLock h fuel r.2 else some (.notListening, r.2) := rfl

section

variable (hlisten : (h 0).listening ∨ (h 2).listening)
include hlisten

/-- When the server listens at the first or second look, only the lock decides. -/
theorem connect_of_listening :
    connect giveUp (some h) (fuel + 1) = takeLock h (fuel + 1) (lockAccess h) := by
  unfold lockAccess
  rw [connect_some]
  split_ifs with h0
  · rfl
  · unfold waitListening
    rw [if_pos (hlisten.resolve_left h0)]
    rfl

/-- The test on the ticks does not matter then. -/
theorem connect_congr : connect giveUp (some h) fuel = connect giveUp' (some h) fuel := by
  cases fuel with
  | zero => rw [connect_some, connect_some]; rfl
  | succ fuel => rw [connect_of_listening hlisten, connect_of_listening hlisten]

/-- The attempt to connect, if the server listens at the first or second look. -/
theorem takeLock_of_connect (hc : connect giveUp (some h) fuel = some (c, k)) :
    takeLock h fuel (lockAccess h) = some (c, k) := by
  cases fuel with
  | zero =>
    rw [connect_some] at hc
    unfold lockAccess
    split_ifs at hc ⊢ with h0
    · exact hc
    · cases hc
  | succ fuel => rwa [connect_of_listening hlisten] at hc

end

/-- Otherwise the first test on the ticks may end the call. -/
theorem connect_of_giveUp (h0 : (h 0).listening = false) (h2 : (h 2).listening = false)
    (htest : giveUp (h 1).globalTicks (h 3).globalTicks) :
    connect giveUp (some h) 1 = some (.notListening, 4) := by
  rw [connect_some]
  unfold waitListening
  simp [h0, h2, htest]

/-- A loop whose test never succeeds does not give up. -/
theorem waitListening_ne_false (htest : ∀ j, k < j → giveUp start (h j).globalTicks = false) :
    waitListening h giveUp start fuel k ≠ some (false, k') := by
  induction fuel generalizing k with
  | zero => nofun
  | succ fuel ih =>
    unfold waitListening
    rw [htest (k + 1) (Nat.lt_succ_self k), if_neg Bool.false_ne_true]
    split_ifs
    · nofun
    · exact ih fun j hj => htest j (by omega)

/-! ### The two functions -/

/-- When the server does not listen at the first two looks, one of the functions gives up too early,
or only one of them ever gives up. -/
theorem listening_of_agree (hforward : Forward h) (hagree : Agree (some h)) :
    (h 0).listening ∨ (h 2).listening := by
  by_contra hnot
  obtain ⟨h0, h2⟩ := not_or.1 hnot
  rw [Bool.not_eq_true] at h0 h2
  have htimeout : ipcConnectTimeoutMs.toNat = 50 := rfl
  by_cases htest : (h 1).globalTicks + ipcConnectTimeoutMs > (h 3).globalTicks
  · -- `write_ipc_server` gives up, but the time is not over
    have hwrite : writeIpcServer (some h) 1 = some (.notListening, 4) :=
      connect_of_giveUp h0 h2 (decide_eq_true htest)
    obtain ⟨g, hg, hpassed, -⟩ := hagree.notListening 1 4 (Or.inl hwrite)
    cases hg
    have hpassed : (h 1).globalTicks.toNat + 50 ≤ (h 3).globalTicks.toNat := hpassed
    rw [gt_iff_lt, UInt64.lt_iff_toNat_lt, UInt64.toNat_add, htimeout] at htest
    omega
  · -- `read_ipc_server` gives up, and `write_ipc_server` never does
    have hover := UInt64.not_lt.1 htest
    have hread : readIpcServer (some h) 1 = some (.notListening, 4) :=
      connect_of_giveUp h0 h2 (decide_eq_true hover)
    obtain ⟨fuel, k, hwrite⟩ := (hagree.same .notListening).2 ⟨1, 4, hread⟩
    rw [writeIpcServer, connect_some, if_neg (by simp [h0])] at hwrite
    obtain ⟨⟨listening, k'⟩, hwait, hrest⟩ := Option.bind_eq_some_iff.1 hwrite
    cases listening with
    | true =>
      rcases takeLock_cases hrest with hc | ⟨hc, -⟩
      · cases hc
      · cases hc
    | false =>
      refine waitListening_ne_false (fun j hj => ?_) hwait
      exact decide_eq_false (UInt64.not_lt.2 (UInt64.le_trans hover (hforward 3 j hj)))

/-- When the server listens, both functions end with the lock or give up in time. -/
theorem agree_of_listening (hlisten : (h 0).listening ∨ (h 2).listening)
    (hlock : LockInTime h (lockAccess h)) : Agree (some h) where
  same c := by
    have heq : ∀ fuel, writeIpcServer (some h) fuel = readIpcServer (some h) fuel :=
      fun fuel => connect_congr hlisten
    simp only [heq]
  notListening fuel k hc := by
    rcases hc with hc | hc <;>
      rcases takeLock_cases (takeLock_of_connect hlisten hc) with hc | ⟨hc, -⟩ <;> cases hc
  connectionTimeout fuel k hc := by
    rcases hc with hc | hc <;>
      exact waitedForLock_of_takeLock (firstAttempt_lockAccess hlisten) hlock
        (takeLock_of_connect hlisten hc)

/-- **The two functions take the same decision, and give up in time**, exactly if the port has a
handle, the server listens at the first or second look, and the lock is free or its deadline does
not overflow. -/
theorem agree_iff {handle : Option History} (hforward : ∀ h, handle = some h → Forward h) :
    Agree handle ↔ ∃ h, handle = some h ∧ ((h 0).listening ∨ (h 2).listening) ∧
      LockInTime h (lockAccess h) := by
  constructor
  · intro hagree
    cases handle with
    | none =>
      obtain ⟨h, hh, -⟩ := hagree.notListening 0 0 (Or.inl rfl)
      cases hh
    | some h =>
      have hlisten := listening_of_agree (hforward h rfl) hagree
      refine ⟨h, rfl, hlisten, ?_⟩
      by_contra hlock
      obtain ⟨htake, hpassed⟩ := takeLock_of_overflow (hforward h rfl) hlock
      have hwrite : writeIpcServer (some h) 1 = some (.connectionTimeout, lockAccess h + 3) :=
        (connect_of_listening hlisten).trans htake
      obtain ⟨g, i, hg, hfirst, hpassed', -⟩ := hagree.connectionTimeout 1 _ (Or.inl hwrite)
      cases hg
      rw [hfirst.unique (firstAttempt_lockAccess hlisten)] at hpassed'
      exact hpassed hpassed'
  · rintro ⟨h, rfl, hlisten, hlock⟩
    exact agree_of_listening hlisten hlock

/-- The server listens from the access `k` on, with the lock free. -/
def listensFrom (k : ℕ) : History := fun i => ⟨k ≤ i, false, 0⟩

/-- A server that is ready at the second look. -/
theorem agree_iff_ready : Agree (some (listensFrom 2)) ↔ ∃ h, some (listensFrom 2) = some h ∧
    ((h 0).listening ∨ (h 2).listening) ∧ LockInTime h (lockAccess h) :=
  agree_iff fun h hh i j _ => by
    cases hh
    exact UInt64.le_refl 0

/-- **A server that is ready at the third look**: `write_ipc_server` has given up by then, and
`read_ipc_server` connects. -/
theorem write_gives_up :
    writeIpcServer (some (listensFrom 4)) 1 = some (.notListening, 4) ∧
      readIpcServer (some (listensFrom 4)) 2 = some (.connected, 6) ∧
      ¬ WaitedForServer (some (listensFrom 4)) 4 := by
  refine ⟨by decide, by decide, ?_⟩
  rintro ⟨h, hh, hpassed, -⟩
  cases hh
  exact absurd hpassed (by unfold Passed; decide)

end IpcConnect

end DripOS
