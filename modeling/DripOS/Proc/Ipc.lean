import DripOS.Lib.Interleave
import Mathlib.Data.UInt

/-!
# Requests to a server process

`wait_ipc`, `read_ipc_server` and `write_ipc_server` of `src/proc/ipc.c` on one port: a server that
calls `wait_ipc` again and again, and any number of clients.  A step is a statement.

The server waits for an event on its own stack, which the handle points to.  A client checks
`listening`, takes `connect_lock`, stores its request, triggers that event, and waits for one of its
own.  `listening` is set before the event is stored, and not checked again after the lock is taken.

`Ipc.requests_returned_once` : when every client takes `connect_lock` while the server is waiting
for its event, every request is returned by exactly one `wait_ipc`.  `Ipc.request_lost` shows the
other interleavings.
-/

namespace DripOS

open Function

namespace Ipc

/-- `operation_type`. -/
inductive Operation where
  | read
  | write
  deriving DecidableEq, Repr

/-- What a client asks for. -/
structure Request where
  pid : ℕ
  buffer : UInt64
  size : BitVec 32
  operation : Operation
  deriving DecidableEq, Repr

/-- The error codes of `ipc.h`. -/
def ipcSuccess : BitVec 32 := 0

@[inherit_doc ipcSuccess] def ipcNotListening : BitVec 32 := 1

@[inherit_doc ipcSuccess] def ipcConnectionTimeout : BitVec 32 := 2

@[inherit_doc ipcSuccess] def ipcBufferTooSmall : BitVec 32 := 3

@[inherit_doc ipcSuccess] def ipcOperationNotSupported : BitVec 32 := 5

/-- `IPC_CONNECT_TIMEOUT_MS`. -/
def ipcConnectTimeoutMs : UInt64 := 50

/-- `union ipc_err`.  The size is not set when there is no error. -/
structure IpcErr where
  err : BitVec 32
  size : Option (BitVec 32)
  deriving DecidableEq, Repr

/-- `ipc_handle_t`.  The events are named by the call of `wait_ipc` and by the client that have
them. -/
structure Handle where
  pid : ℕ
  buffer : UInt64
  size : BitVec 32
  operation : Operation
  listening : Bool
  err : BitVec 32
  connectLock : Bool
  ipcEvent : Option ℕ
  ipcCompleted : Option ℕ
  deriving DecidableEq, Repr

namespace Handle

/-- A handle from `kcalloc`. -/
def new : Handle := ⟨0, 0, 0, .read, false, 0, false, none, none⟩

/-- The request in a handle. -/
def request (h : Handle) : Request := ⟨h.pid, h.buffer, h.size, h.operation⟩

/-- What `read_ipc_server` and `write_ipc_server` return at their ends. -/
def result (h : Handle) : IpcErr := if h.err = 0 then ⟨ipcSuccess, none⟩ else ⟨h.err, h.size⟩

end Handle

/-- Where the server is. -/
inductive ServerPc where
  /-- Before `wait_ipc`. -/
  | idle
  /-- `listening` is set. -/
  | listening
  /-- The event is stored in the handle: in `await_event`. -/
  | awaiting
  /-- After `await_event`. -/
  | woken
  /-- `wait_ipc` has returned, and the request is served. -/
  | serving
  deriving DecidableEq, Repr

/-- The statements of the server. -/
inductive ServerStmt where
  | listen
  | publish
  | await
  | finish
  /-- The server stores an error and a size. -/
  | reply (err size : BitVec 32)
  | complete
  deriving DecidableEq, Repr

/-- The statements of a client that has `connect_lock`. -/
inductive Stage where
  | pid
  | completed
  | buffer
  | size
  | operation
  | trigger
  | await
  | release
  deriving DecidableEq, Repr

/-- Where a client is. -/
inductive ClientPc where
  /-- In no call, with the result of the last one. -/
  | out (last : Option IpcErr)
  /-- In the loop that waits for `listening`. -/
  | spin (req : Request) (startTick : UInt64)
  /-- Before the first attempt to take `connect_lock`. -/
  | connect (req : Request)
  /-- In the loop that attempts to take `connect_lock`. -/
  | reconnect (req : Request) (startTicks : UInt64)
  /-- Has `connect_lock`. -/
  | holds (stage : Stage) (req : Request)
  /-- Has released `connect_lock`. -/
  | result
  deriving DecidableEq, Repr

/-- The statements of a client. -/
inductive ClientStmt where
  | call (req : Request)
  | next
  deriving DecidableEq, Repr

/-- The shared state. -/
structure Port where
  handle : Handle
  globalTicks : UInt64
  server : ServerPc
  /-- Ghost: the number of the last call of `wait_ipc`. -/
  wait : ℕ
  /-- `ipc_await_event` of this call. -/
  ipcAwaitEvent : ℕ
  /-- `wait_server_done` of the clients that have it on their stacks. -/
  waitServerDone : ℕ → Option ℕ
  /-- Ghost: the client that has `connect_lock`. -/
  holder : Option ℕ
  /-- Ghost: the clients that got `connect_lock`, with their requests. -/
  connected : List (ℕ × Request)
  /-- Ghost: the requests that `wait_ipc` returned. -/
  returned : List Request
  /-- Ghost: an event was triggered that is null, or that nobody waits for. -/
  stray : Bool

namespace Port

/-- `connect_lock` is taken, and `wait_server_done` is 0. -/
def connect (g : Port) (i : ℕ) (req : Request) : Port :=
  { g with
    handle := { g.handle with connectLock := true }
    waitServerDone := update g.waitServerDone i (some 0)
    holder := some i
    connected := g.connected ++ [(i, req)] }

/-- `trigger_event(handle->ipc_event)`. -/
def triggerIpcEvent (g : Port) : Port :=
  if g.handle.ipcEvent = some g.wait ∧ g.server = .awaiting then
    { g with ipcAwaitEvent := g.ipcAwaitEvent + 1 }
  else { g with stray := true }

/-- `trigger_event(handle->ipc_completed)`. -/
def triggerIpcCompleted (g : Port) : Port :=
  match g.handle.ipcCompleted with
  | none => { g with stray := true }
  | some i =>
    match g.waitServerDone i with
    | none => { g with stray := true }
    | some n => { g with waitServerDone := update g.waitServerDone i (some (n + 1)) }

/-- Whether the loop that waits for `listening` gives up.  The two functions differ. -/
def givesUp (g : Port) (operation : Operation) (startTick : UInt64) : Bool :=
  match operation with
  | .read => startTick + ipcConnectTimeoutMs ≤ g.globalTicks
  | .write => startTick + ipcConnectTimeoutMs > g.globalTicks

end Port

/-- The statements of a client that has `connect_lock`. -/
def holderStep (i : ℕ) (stage : Stage) (req : Request) (g : Port) : Option (Port × ClientPc) :=
  match stage with
  | .pid => some ({ g with handle := { g.handle with pid := req.pid } }, .holds .completed req)
  | .completed =>
    some ({ g with handle := { g.handle with ipcCompleted := some i } }, .holds .buffer req)
  | .buffer => some ({ g with handle := { g.handle with buffer := req.buffer } }, .holds .size req)
  | .size => some ({ g with handle := { g.handle with size := req.size } }, .holds .operation req)
  | .operation =>
    some ({ g with handle := { g.handle with operation := req.operation } }, .holds .trigger req)
  | .trigger => some (g.triggerIpcEvent, .holds .await req)
  | .await =>
    match g.waitServerDone i with
    | some (n + 1) =>
      some ({ g with waitServerDone := update g.waitServerDone i (some n) }, .holds .release req)
    | _ => none
  | .release =>
    some ({ g with handle := { g.handle with connectLock := false }, holder := none }, .result)

/-- The statements of a client. -/
def clientStep (i : ℕ) (a : ClientStmt) (g : Port) (pc : ClientPc) : Option (Port × ClientPc) :=
  match a, pc with
  | .call req, .out _ =>
    if g.handle.listening then some (g, .connect req) else some (g, .spin req g.globalTicks)
  | .next, .spin req startTick =>
    if g.handle.listening then some (g, .connect req)
    else if g.givesUp req.operation startTick then some (g, .out (some ⟨ipcNotListening, none⟩))
    else some (g, .spin req startTick)
  | .next, .connect req =>
    if g.handle.connectLock then some (g, .reconnect req g.globalTicks)
    else some (g.connect i req, .holds .pid req)
  | .next, .reconnect req startTicks =>
    if startTicks + ipcConnectTimeoutMs > g.globalTicks then
      if g.handle.connectLock then some (g, .reconnect req startTicks)
      else some (g.connect i req, .holds .pid req)
    else some (g, .out (some ⟨ipcConnectionTimeout, none⟩))
  | .next, .holds stage req => holderStep i stage req g
  | .next, .result =>
    -- the error is read after the lock was released
    some ({ g with waitServerDone := update g.waitServerDone i none }, .out (some g.handle.result))
  | _, _ => none

/-- The statement that the server is at. -/
def ServerStmt.pc : ServerStmt → ServerPc
  | .listen => .idle
  | .publish => .listening
  | .await => .awaiting
  | .finish => .woken
  | .reply _ _ | .complete => .serving

/-- The statements of the server. -/
def serverStep (b : ServerStmt) (g : Port) : Option Port :=
  if g.server ≠ b.pc then none
  else match b with
  | .listen => some { g with server := .listening, handle := { g.handle with listening := true } }
  | .publish =>
    some { g with
      server := .awaiting
      wait := g.wait + 1
      ipcAwaitEvent := 0
      handle := { g.handle with ipcEvent := some (g.wait + 1) } }
  | .await =>
    if g.ipcAwaitEvent = 0 then none
    else some { g with server := .woken, ipcAwaitEvent := g.ipcAwaitEvent - 1 }
  | .finish =>
    some { g with
      server := .serving
      handle := { g.handle with listening := false }
      returned := g.returned ++ [g.handle.request] }
  | .reply err size => some { g with handle := { g.handle with err := err, size := size } }
  | .complete => some { g.triggerIpcCompleted with server := .idle }

/-- Steps that no client takes. -/
inductive PortStmt where
  | server (b : ServerStmt)
  | tick
  deriving DecidableEq, Repr

/-- A server and its clients. -/
def system : System ℕ Port ClientPc ClientStmt PortStmt where
  shared
    | .server b, g => serverStep b g
    | .tick, g => some { g with globalTicks := g.globalTicks + 1 }
  proc := clientStep

/-- The port was registered, and nobody has called anything. -/
def init : Conf ℕ Port ClientPc :=
  ⟨⟨.new, 0, .idle, 0, 0, fun _ => none, none, [], [], false⟩, fun _ => .out none⟩

/-- The next statement of the client takes `connect_lock`. -/
def takesLock (g : Port) : ClientPc → Bool
  | .connect _ => !g.handle.connectLock
  | .reconnect _ startTicks =>
    startTicks + ipcConnectTimeoutMs > g.globalTicks && !g.handle.connectLock
  | _ => false

/-- A client takes `connect_lock` only while the server is waiting for its event. -/
def ServerWaits (c : Conf ℕ Port ClientPc) : Act ℕ ClientStmt PortStmt → Prop
  | .proc i .next => takesLock c.shared (c.loc i) → c.shared.server = .awaiting
  | _ => True

instance (c : Conf ℕ Port ClientPc) (l : Act ℕ ClientStmt PortStmt) :
    Decidable (ServerWaits c l) := by
  unfold ServerWaits
  split <;> infer_instance

/-! ### The invariant -/

/-- Every request was returned, and the server has not been woken up since. -/
def Port.Quiet (g : Port) : Prop :=
  g.connected.map Prod.snd = g.returned ∧
    (g.server = .idle ∨ g.server = .listening ∨ g.server = .awaiting ∧ g.ipcAwaitEvent = 0)

/-- Every request was returned, except the one of the client. -/
def Port.Pending (g : Port) (i : ℕ) (req : Request) : Prop :=
  ∃ rest, g.connected = rest ++ [(i, req)] ∧ rest.map Prod.snd = g.returned

/-- What the client has stored before a statement. -/
def Handle.Stored (h : Handle) (i : ℕ) (req : Request) : Stage → Prop
  | .pid => True
  | .completed => h.pid = req.pid
  | .buffer => h.pid = req.pid ∧ h.ipcCompleted = some i
  | .size => h.pid = req.pid ∧ h.ipcCompleted = some i ∧ h.buffer = req.buffer
  | .operation =>
    h.pid = req.pid ∧ h.ipcCompleted = some i ∧ h.buffer = req.buffer ∧ h.size = req.size
  | .trigger | .await | .release => h.request = req ∧ h.ipcCompleted = some i

/-- How far the request of the client that has the lock is. -/
inductive Phase (i : ℕ) (req : Request) (g : Port) : Stage → Prop
  /-- The server waits, and the request is being stored. -/
  | storing {stage : Stage} : stage ≠ .await → stage ≠ .release → g.server = .awaiting →
      g.ipcAwaitEvent = 0 → g.waitServerDone i = some 0 → g.Pending i req →
      g.handle.Stored i req stage → Phase i req g stage
  /-- The server has not returned the request yet. -/
  | triggered : g.server = .awaiting ∧ g.ipcAwaitEvent = 1 ∨ g.server = .woken →
      g.waitServerDone i = some 0 → g.Pending i req → g.handle.Stored i req .await →
      Phase i req g .await
  | serving : g.server = .serving → g.waitServerDone i = some 0 →
      g.connected.map Prod.snd = g.returned → g.handle.ipcCompleted = some i → Phase i req g .await
  | completed : g.Quiet → g.waitServerDone i = some 1 → Phase i req g .await
  | release : g.Quiet → Phase i req g .release

/-- What is true of a client. -/
def ClientOk (i : ℕ) (g : Port) : ClientPc → Prop
  | .holds stage req => g.holder = some i ∧ Phase i req g stage
  | _ => g.holder ≠ some i

/-- What is true of the port. -/
structure PortOk (g : Port) : Prop where
  stray : g.stray = false
  lock : g.handle.connectLock = g.holder.isSome
  event : g.server = .awaiting → g.handle.ipcEvent = some g.wait
  quiet : g.holder = none → g.Quiet

variable {g g' : Port} {i j : ℕ} {req : Request} {pc pc' : ClientPc} {stage : Stage}

/-- Only the client that has the lock is affected by what happens to its request. -/
theorem ClientOk.of_holder (h : ClientOk j g pc) (hholder : g'.holder = g.holder)
    (hphase : ∀ stage req, g.holder = some j → Phase j req g stage → Phase j req g' stage) :
    ClientOk j g' pc := by
  cases pc with
  | holds stage req =>
    obtain ⟨hj, hp⟩ := h
    exact ⟨hholder.trans hj, hphase stage req hj hp⟩
  | out _ | spin _ _ | connect _ | reconnect _ _ | result =>
    intro hj
    exact h (hholder.symm.trans hj)

/-- The other clients do not notice what the client with the lock does. -/
theorem ClientOk.of_other (h : ClientOk j g pc) (hne : j ≠ i)
    (hholder : g.holder = none ∨ g.holder = some i)
    (hholder' : g'.holder = none ∨ g'.holder = some i) : ClientOk j g' pc := by
  have hj : g.holder ≠ some j := by
    rcases hholder with h | h <;> simp [h, hne.symm]
  have hj' : g'.holder ≠ some j := by
    rcases hholder' with h | h <;> simp [h, hne.symm]
  cases pc with
  | holds stage req => exact absurd h.1 hj
  | out _ | spin _ _ | connect _ | reconnect _ _ | result => exact hj'

theorem Port.not_quiet (hs : g.server = .woken ∨ g.server = .serving) : ¬ g.Quiet := by
  rintro ⟨-, hq⟩
  rcases hs with hs | hs <;> simp [hs] at hq

/-- Where the server is, from the phase of the request. -/
theorem Phase.server (h : Phase i req g stage) (hserver : g.server = .woken ∨ g.server = .serving) :
    stage = .await ∧ g.waitServerDone i = some 0 ∧ g.handle.ipcCompleted = some i ∧
      (g.server = .woken → g.Pending i req ∧ g.handle.request = req) ∧
      (g.server = .serving → g.connected.map Prod.snd = g.returned) := by
  have hquiet := Port.not_quiet hserver
  cases h with
  | storing _ _ hs => rcases hserver with hs' | hs' <;> cases hs.symm.trans hs'
  | triggered hs hdone hpending hstored =>
    refine ⟨rfl, hdone, hstored.2, fun _ => ⟨hpending, hstored.1⟩, fun hs' => ?_⟩
    rcases hs with ⟨hs, -⟩ | hs <;> cases hs.symm.trans hs'
  | serving hs hdone hreturned hcompleted =>
    refine ⟨rfl, hdone, hcompleted, fun hs' => ?_, fun _ => hreturned⟩
    cases hs.symm.trans hs'
  | completed hq => exact absurd hq hquiet
  | release hq => exact absurd hq hquiet

/-- What a step of the server has to keep. -/
structure ServerKept (g g' : Port) : Prop where
  ok : PortOk g'
  holder : g'.holder = g.holder
  phase : ∀ i stage req, g.holder = some i → Phase i req g stage → Phase i req g' stage

section

variable (hok : PortOk g)
include hok

/-- Before it waits, the server changes nothing that a request depends on. -/
theorem ServerKept.of_quiet (hs : g.server = .idle ∨ g.server = .listening)
    (hs' : g'.server = .listening ∨ g'.server = .awaiting ∧ g'.ipcAwaitEvent = 0)
    (hevent : g'.server = .awaiting → g'.handle.ipcEvent = some g'.wait)
    (hlock : g'.handle.connectLock = g.handle.connectLock)
    (hsame : g' = { g with
      server := g'.server
      wait := g'.wait
      ipcAwaitEvent := g'.ipcAwaitEvent
      handle := g'.handle }) : ServerKept g g' := by
  have hquiet : g.Quiet → g'.Quiet := fun hq => ⟨by rw [hsame]; exact hq.1, Or.inr hs'⟩
  have hholder : g'.holder = g.holder := by rw [hsame]
  refine ⟨⟨by rw [hsame]; exact hok.stray, ?_, hevent, fun h => hquiet (hok.quiet ?_)⟩, hholder, ?_⟩
  · rw [hlock, hok.lock, hholder]
  · rw [← hholder, h]
  · intro i stage req _ hphase
    cases hphase with
    | storing _ _ hs' => simp [hs'] at hs
    | triggered hs' => rcases hs' with ⟨hs', -⟩ | hs' <;> simp [hs'] at hs
    | serving hs' => simp [hs'] at hs
    | completed hq hdone => exact .completed (hquiet hq) (by rw [hsame]; exact hdone)
    | release hq => exact .release (hquiet hq)

theorem serverKept_await (hs : g.server = .awaiting) (hset : g.ipcAwaitEvent ≠ 0) :
    ServerKept g { g with server := .woken, ipcAwaitEvent := g.ipcAwaitEvent - 1 } := by
  have hquiet : ¬ g.Quiet := by
    rintro ⟨-, hq⟩
    simp [hs, hset] at hq
  refine ⟨⟨hok.stray, hok.lock, by simp, fun h => absurd (hok.quiet h) hquiet⟩, rfl, ?_⟩
  intro i stage req _ hphase
  cases hphase with
  | storing _ _ _ hzero => exact absurd hzero hset
  | triggered _ hdone hpending hstored => exact .triggered (Or.inr rfl) hdone hpending hstored
  | serving hs' => cases hs.symm.trans hs'
  | completed hq => exact absurd hq hquiet
  | release hq => exact absurd hq hquiet

theorem serverKept_finish (hs : g.server = .woken) :
    ServerKept g { g with
      server := .serving
      handle := { g.handle with listening := false }
      returned := g.returned ++ [g.handle.request] } := by
  have hquiet := Port.not_quiet (Or.inl hs)
  refine ⟨⟨hok.stray, hok.lock, by simp, fun h => absurd (hok.quiet h) hquiet⟩, rfl, ?_⟩
  intro i stage req _ hphase
  obtain ⟨rfl, hdone, hcompleted, hwoken, -⟩ := hphase.server (Or.inl hs)
  obtain ⟨⟨rest, hconnected, hreturned⟩, hrequest⟩ := hwoken hs
  refine .serving rfl hdone ?_ hcompleted
  simp [hconnected, hreturned, hrequest]

theorem serverKept_reply (hs : g.server = .serving) (err size : BitVec 32) :
    ServerKept g { g with handle := { g.handle with err := err, size := size } } := by
  refine ⟨⟨hok.stray, hok.lock, hok.event, hok.quiet⟩, rfl, ?_⟩
  intro i stage req _ hphase
  obtain ⟨rfl, hdone, hcompleted, -, hserving⟩ := hphase.server (Or.inr hs)
  exact .serving hs hdone (hserving hs) hcompleted

theorem serverKept_complete (hs : g.server = .serving)
    (hholder : ∀ i, g.holder = some i → ∃ stage req, Phase i req g stage) :
    ServerKept g { g.triggerIpcCompleted with server := .idle } := by
  obtain ⟨i, hi⟩ := Option.ne_none_iff_exists'.1 fun h =>
    Port.not_quiet (Or.inr hs) (hok.quiet h)
  obtain ⟨stage, req, hphase⟩ := hholder i hi
  obtain ⟨-, hdone, hcompleted, -, hserving⟩ := hphase.server (Or.inr hs)
  have htrigger : g.triggerIpcCompleted =
      { g with waitServerDone := update g.waitServerDone i (some 1) } := by
    simp only [Port.triggerIpcCompleted, hcompleted, hdone]
  rw [htrigger]
  refine ⟨⟨hok.stray, hok.lock, by simp, fun h => ?_⟩, rfl, ?_⟩
  · cases hi.symm.trans h
  · intro j stage' req' hj hphase'
    obtain rfl := Option.some.inj (hi.symm.trans hj)
    obtain ⟨rfl, -⟩ := hphase'.server (Or.inr hs)
    exact .completed ⟨hserving hs, Or.inl rfl⟩ (update_self _ _ _)

theorem serverStep_kept {b : ServerStmt}
    (hholder : ∀ i, g.holder = some i → ∃ stage req, Phase i req g stage)
    (h : serverStep b g = some g') : ServerKept g g' := by
  unfold serverStep at h
  rcases ne_or_eq g.server b.pc with hne | hs
  · rw [if_pos hne] at h
    cases h
  rw [if_neg (not_not.2 hs)] at h
  cases b with
  | listen =>
    cases h
    exact .of_quiet hok (Or.inl hs) (Or.inl rfl) (by simp) rfl rfl
  | publish =>
    cases h
    exact .of_quiet hok (Or.inr hs) (Or.inr ⟨rfl, rfl⟩) (fun _ => rfl) rfl rfl
  | await =>
    split_ifs at h with hset
    cases h
    exact serverKept_await hok hs hset
  | finish =>
    cases h
    exact serverKept_finish hok hs
  | reply err size =>
    cases h
    exact serverKept_reply hok hs err size
  | complete =>
    cases h
    exact serverKept_complete hok hs hholder

/-- What a step of the client that has the lock has to keep. -/
structure ClientKept (i : ℕ) (g g' : Port) (pc' : ClientPc) : Prop where
  ok : PortOk g'
  own : ClientOk i g' pc'
  others : ∀ j pcj, j ≠ i → ClientOk j g pcj → ClientOk j g' pcj

theorem ClientKept.store {h' : Handle} {stage' : Stage} (hi : g.holder = some i)
    (hphase : Phase i req g stage)
    (hstage : (stage ≠ .await ∧ stage ≠ .release) ∧ stage' ≠ .await ∧ stage' ≠ .release)
    (hlock : h'.connectLock = g.handle.connectLock) (hevent : h'.ipcEvent = g.handle.ipcEvent)
    (hstored : g.handle.Stored i req stage → h'.Stored i req stage') :
    ClientKept i g { g with handle := h' } (.holds stage' req) := by
  refine ⟨⟨hok.stray, hlock.trans hok.lock, fun hs => hevent.trans (hok.event hs), hok.quiet⟩, ?_,
    fun j pcj hj hc => hc.of_other hj (Or.inr hi) (Or.inr hi)⟩
  cases hphase with
  | storing _ _ hs hzero hdone hpending hst =>
    exact ⟨hi, .storing hstage.2.1 hstage.2.2 hs hzero hdone hpending (hstored hst)⟩
  | triggered | serving | completed => exact absurd rfl hstage.1.1
  | release => exact absurd rfl hstage.1.2

theorem clientKept_trigger (hi : g.holder = some i) (hphase : Phase i req g .trigger) :
    ClientKept i g g.triggerIpcEvent (.holds .await req) := by
  cases hphase with
  | storing _ _ hs hzero hdone hpending hst =>
    have htrigger : g.triggerIpcEvent = { g with ipcAwaitEvent := 1 } := by
      rw [Port.triggerIpcEvent, if_pos ⟨hok.event hs, hs⟩, hzero]
    rw [htrigger]
    refine ⟨⟨hok.stray, hok.lock, hok.event, fun h => ?_⟩, ⟨hi, ?_⟩,
      fun j pcj hj hc => hc.of_other hj (Or.inr hi) (Or.inr hi)⟩
    · cases hi.symm.trans h
    · exact .triggered (Or.inl ⟨hs, rfl⟩) hdone hpending hst

theorem holderStep_kept (hi : g.holder = some i) (hphase : Phase i req g stage)
    (h : holderStep i stage req g = some (g', pc')) : ClientKept i g g' pc' := by
  cases stage with
  | pid =>
    cases h
    exact .store hok hi hphase (by simp) rfl rfl fun _ => rfl
  | completed =>
    cases h
    exact .store hok hi hphase (by simp) rfl rfl fun hst => ⟨hst, rfl⟩
  | buffer =>
    cases h
    exact .store hok hi hphase (by simp) rfl rfl
      fun hst => ⟨hst.1, hst.2, rfl⟩
  | size =>
    cases h
    exact .store hok hi hphase (by simp) rfl rfl
      fun hst => ⟨hst.1, hst.2.1, hst.2.2, rfl⟩
  | operation =>
    cases h
    refine .store hok hi hphase (by simp) rfl rfl
      fun ⟨hpid, hcompleted, hbuffer, hsize⟩ => ⟨?_, hcompleted⟩
    simp only [Handle.request, hpid, hbuffer, hsize]
  | trigger =>
    cases h
    exact clientKept_trigger hok hi hphase
  | await =>
    dsimp only [holderStep] at h
    split at h
    · rename_i n hn
      cases h
      cases hphase with
      | storing hne => exact absurd rfl hne
      | triggered _ hdone | serving _ hdone => cases hn.symm.trans hdone
      | completed hq =>
        exact ⟨⟨hok.stray, hok.lock, hok.event, fun _ => hq⟩, ⟨hi, .release hq⟩,
          fun j pcj hj hc => hc.of_other hj (Or.inr hi) (Or.inr hi)⟩
    · cases h
  | release =>
    cases h
    cases hphase with
    | storing _ hne => exact absurd rfl hne
    | release hq =>
      exact ⟨⟨hok.stray, rfl, hok.event, fun _ => hq⟩, by simp [ClientOk],
        fun j pcj hj hc => hc.of_other hj (Or.inr hi) (Or.inl rfl)⟩

theorem clientKept_connect (hfree : g.handle.connectLock = false) (hs : g.server = .awaiting) :
    ClientKept i g (g.connect i req) (.holds .pid req) := by
  have hnone : g.holder = none := Option.not_isSome_iff_eq_none.1 (by simp [← hok.lock, hfree])
  obtain ⟨hreturned, hserver⟩ := hok.quiet hnone
  have hzero : g.ipcAwaitEvent = 0 := by simpa [hs] using hserver
  refine ⟨⟨hok.stray, rfl, hok.event, fun h => by cases h⟩, ⟨rfl, ?_⟩,
    fun j pcj hj hc => hc.of_other hj (Or.inl hnone) (Or.inr rfl)⟩
  exact .storing (by simp) (by simp) hs hzero (update_self _ _ _)
    ⟨g.connected, rfl, hreturned⟩ trivial

end

/-- The phase of a request does not depend on the events of other clients, nor on the time. -/
theorem Phase.of_eq {done : ℕ → Option ℕ} {ticks : UInt64} (h : Phase j req g stage)
    (hdone : done j = g.waitServerDone j) :
    Phase j req { g with waitServerDone := done, globalTicks := ticks } stage := by
  cases h with
  | storing h1 h2 hs hzero hd hpending hst =>
    exact .storing h1 h2 hs hzero (hdone.trans hd) hpending hst
  | triggered hs hd hpending hst => exact .triggered hs (hdone.trans hd) hpending hst
  | serving hs hd hreturned hcompleted =>
    exact .serving hs (hdone.trans hd) hreturned hcompleted
  | completed hq hd => exact .completed hq (hdone.trans hd)
  | release hq => exact .release hq

theorem clientStep_kept {a : ClientStmt} (hok : PortOk g) (hc : ClientOk i g pc)
    (hwaits : a = .next → takesLock g pc → g.server = .awaiting)
    (h : clientStep i a g pc = some (g', pc')) : ClientKept i g g' pc' := by
  have hsame {pc' : ClientPc} (hc' : ClientOk i g pc') : ClientKept i g g pc' :=
    ⟨hok, hc', fun _ _ _ h => h⟩
  unfold clientStep at h
  split at h
  · split_ifs at h <;> cases h <;> exact hsame hc
  · split_ifs at h <;> cases h <;> exact hsame hc
  · split_ifs at h with hlock <;> cases h
    · exact hsame hc
    · have hfree := Bool.not_eq_true _ ▸ hlock
      exact clientKept_connect hok hfree (hwaits rfl (by simp [takesLock, hfree]))
  · split_ifs at h with htime hlock <;> cases h
    · exact hsame hc
    · have hfree := Bool.not_eq_true _ ▸ hlock
      refine clientKept_connect hok hfree (hwaits rfl ?_)
      simpa [takesLock, hfree] using htime
    · exact hsame hc
  · exact holderStep_kept hok hc.1 hc.2 h
  · cases h
    exact ⟨⟨hok.stray, hok.lock, hok.event, hok.quiet⟩, hc,
      fun j pcj hj hcj => hcj.of_holder rfl fun _ _ _ hphase =>
        hphase.of_eq (update_of_ne hj _ _)⟩
  · cases h

theorem ClientOk.phase (h : ClientOk i g pc) (hi : g.holder = some i) :
    ∃ stage req, pc = .holds stage req ∧ Phase i req g stage := by
  cases pc with
  | holds stage req => exact ⟨stage, req, rfl, h.2⟩
  | out _ | spin _ _ | connect _ | reconnect _ _ | result => exact absurd hi h

theorem holds_of_run {ls : List (Act ℕ ClientStmt PortStmt)} {c : Conf ℕ Port ClientPc}
    (hrun : Run (system.Step ServerWaits) init ls c) : System.Holds PortOk ClientOk c := by
  refine System.invariant hrun ⟨⟨rfl, rfl, by simp [init], fun _ => ⟨rfl, Or.inl rfl⟩⟩, fun i => ?_⟩
    ?_ ?_
  · simp [init, ClientOk]
  · intro c b g hc _ hstep
    cases b with
    | server b =>
      have hholder : ∀ i, c.shared.holder = some i → ∃ stage req, Phase i req c.shared stage := by
        intro i hi
        obtain ⟨stage, req, -, hphase⟩ := (hc.loc i).phase hi
        exact ⟨stage, req, hphase⟩
      have hkept := serverStep_kept hc.shared hholder hstep
      exact ⟨hkept.ok, fun j => (hc.loc j).of_holder hkept.holder (hkept.phase j)⟩
    | tick =>
      cases hstep
      refine ⟨⟨hc.shared.stray, hc.shared.lock, hc.shared.event, hc.shared.quiet⟩,
        fun j => (hc.loc j).of_holder rfl fun _ _ _ hphase => hphase.of_eq rfl⟩
  · intro c i a g pc hc hP hstep
    have hwaits : a = .next → takesLock c.shared (c.loc i) → c.shared.server = .awaiting := by
      rintro rfl
      exact hP
    have hkept := clientStep_kept hc.shared (hc.loc i) hwaits hstep
    exact ⟨hkept.ok, hkept.own, fun j hj => hkept.others j _ hj (hc.loc j)⟩

/-- **Every request is returned by exactly one `wait_ipc`**, in every interleaving in which the
clients take `connect_lock` while the server is waiting for its event.  The returned requests are
those of the clients that got the lock, in their order, perhaps without the last one: then its
client is storing it, and the server is waiting; or it is in the handle, and the server's event is
set.  No event is triggered that is null, or that nobody waits for. -/
theorem requests_returned_once {ls : List (Act ℕ ClientStmt PortStmt)} {c : Conf ℕ Port ClientPc}
    (hrun : Run (system.Step ServerWaits) init ls c) :
    c.shared.stray = false ∧
    (c.shared.connected.map Prod.snd = c.shared.returned ∨
      ∃ rest i req stage, c.shared.connected = rest ++ [(i, req)] ∧
        rest.map Prod.snd = c.shared.returned ∧ c.loc i = .holds stage req ∧ stage ≠ .release ∧
        (stage ≠ .await → c.shared.server = .awaiting) ∧
        (stage = .await → c.shared.handle.request = req ∧
          (c.shared.server = .awaiting ∧ c.shared.ipcAwaitEvent = 1 ∨
            c.shared.server = .woken))) := by
  obtain ⟨hok, hclients⟩ := holds_of_run hrun
  refine ⟨hok.stray, ?_⟩
  cases hholder : c.shared.holder with
  | none => exact Or.inl (hok.quiet hholder).1
  | some i =>
  obtain ⟨stage, req, hloc, hphase⟩ := (hclients i).phase hholder
  cases hphase with
  | storing hawait hrelease hs _ _ hpending =>
    obtain ⟨rest, hrest, hreturned⟩ := hpending
    exact Or.inr ⟨rest, i, req, stage, hrest, hreturned, hloc, hrelease, fun _ => hs,
      fun h => absurd h hawait⟩
  | triggered hs _ hpending hst =>
    obtain ⟨rest, hrest, hreturned⟩ := hpending
    exact Or.inr ⟨rest, i, req, .await, hrest, hreturned, hloc, by simp, fun h => absurd rfl h,
      fun _ => ⟨hst.1, hs⟩⟩
  | serving _ _ hreturned => exact Or.inl hreturned
  | completed hq => exact Or.inl hq.1
  | release hq => exact Or.inl hq.1

/-- Two requests. -/
def reqA : Request := ⟨3, 0x1000, 32, .read⟩

@[inherit_doc reqA] def reqB : Request := ⟨4, 0x2000, 8, .write⟩

/-- A client gets the lock at once, up to the trigger. -/
def clientSends (i : ℕ) : List (Act ℕ ClientStmt PortStmt) := List.replicate 7 (.proc i .next)

/-- The server returns from `wait_ipc`, serves the request, and the client returns. -/
def serverServes (i : ℕ) : List (Act ℕ ClientStmt PortStmt) :=
  [.shared (.server .await), .shared (.server .finish), .shared (.server .complete)] ++
    List.replicate 3 (.proc i .next)

/-- The server waits again. -/
def serverWaits : List (Act ℕ ClientStmt PortStmt) :=
  [.shared (.server .listen), .shared (.server .publish)]

/-- The second client gets the lock when the server is waiting again. -/
def twoClients : List (Act ℕ ClientStmt PortStmt) :=
  serverWaits ++ [.proc 1 (.call reqA), .proc 2 (.call reqB)] ++ clientSends 1 ++ [.proc 2 .next] ++
    serverServes 1 ++ serverWaits ++ clientSends 2 ++ [.shared (.server .await)]

/-- The request of the second client is about to be returned. -/
theorem requests_returned_once_twoClients : ∃ c, Run (system.Step ServerWaits) init twoClients c ∧
    c.shared.returned = [reqA] ∧ c.shared.connected = [(1, reqA), (2, reqB)] ∧
    c.shared.stray = false ∧
    (c.shared.connected.map Prod.snd = c.shared.returned ∨
      ∃ rest i req stage, c.shared.connected = rest ++ [(i, req)] ∧
        rest.map Prod.snd = c.shared.returned ∧ c.loc i = .holds stage req ∧ stage ≠ .release ∧
        (stage ≠ .await → c.shared.server = .awaiting) ∧
        (stage = .await → c.shared.handle.request = req ∧
          (c.shared.server = .awaiting ∧ c.shared.ipcAwaitEvent = 1 ∨
            c.shared.server = .woken))) := by
  obtain ⟨c, hrun, hreturned, hconnected⟩ : ∃ c, Run (system.Step ServerWaits) init twoClients c ∧
      c.shared.returned = [reqA] ∧ c.shared.connected = [(1, reqA), (2, reqB)] :=
    System.exists_run (by decide +kernel)
  exact ⟨c, hrun, hreturned, hconnected, requests_returned_once hrun⟩

/-- **Requests that are lost.**  A client that sees `listening` before the server has stored its
event triggers a null event.  A client that saw `listening` before another one was served triggers
the event of the call that has returned; then server and client wait for each other. -/
theorem request_lost :
    (∃ c, Run (system.Step fun _ _ => True) init
      ([.shared (.server .listen), .proc 1 (.call reqA)] ++ clientSends 1) c ∧
      c.shared.handle.ipcEvent = none ∧ c.shared.stray = true) ∧
    ∃ c, Run (system.Step fun _ _ => True) init
      (serverWaits ++ [.proc 1 (.call reqA), .proc 2 (.call reqB)] ++ clientSends 1 ++
        serverServes 1 ++ clientSends 2 ++ serverWaits) c ∧
      c.shared.stray = true ∧ c.shared.returned = [reqA] ∧ c.loc 2 = .holds .await reqB ∧
      (system.exec c (.proc 2 .next)).isNone ∧
      (system.exec c (.shared (.server .await))).isNone := by
  exact ⟨System.exists_run (by decide +kernel), System.exists_run (by decide +kernel)⟩

end Ipc

end DripOS
