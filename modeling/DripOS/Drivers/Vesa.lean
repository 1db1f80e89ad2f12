import DripOS.Proc.Ipc

/-!
# The framebuffer server

`vesa_ipc_server` of `src/drivers/vesa.c`, one request after the other.  `err` is stored for a
request that fails, and never for one that succeeds.

* `Vesa.err_eq_code_iff` : a client gets the code of its own request exactly if the request fails,
  or no request has failed before;
* `Vesa.exchange_run` : an exchange is an interleaving of the statements of `Ipc.system`.
-/

namespace DripOS

open List

namespace Vesa

open Ipc

/-- The fields of `vesa_info_t` that the server reads. -/
structure VesaInfo where
  framebufferSize : UInt64
  width : UInt64
  height : UInt64
  pitch : UInt64

/-- `vesa_ipc_data_area_t`. -/
structure DataArea where
  bufferPointer : UInt64
  width : UInt64
  height : UInt64
  pitch : UInt64
  deriving DecidableEq, Repr

/-- `sizeof(vesa_ipc_data_area_t)`. -/
def dataAreaSize : ℕ := 32

/-- The server's test of the size, as an unsigned number: a negative one is not too small. -/
def tooSmall (size : BitVec 32) : Bool := (size.signExtend 64).toNat < dataAreaSize

/-- The code for a request, as the server tests it. -/
def code (req : Request) : BitVec 32 :=
  match req.operation with
  | .read => if tooSmall req.size then ipcBufferTooSmall else ipcSuccess
  | .write => ipcOperationNotSupported

/-- What the server reads and writes. -/
structure State where
  handle : Handle
  /-- `current_brk` of the processes: the framebuffer is mapped there. -/
  currentBrk : ℕ → UInt64
  /-- Ghost: the areas that were copied to the buffers of clients. -/
  copied : List (UInt64 × DataArea)

/-- The server has registered its port. -/
def init (currentBrk : ℕ → UInt64) : State := ⟨.new, currentBrk, []⟩

/-- An iteration of `vesa_ipc_server`, after `wait_ipc` has returned. -/
def serve (info : VesaInfo) (s : State) : State :=
  match s.handle.operation with
  | .read =>
    if tooSmall s.handle.size then
      { s with handle := { s.handle with
          err := ipcBufferTooSmall
          size := BitVec.ofNat 32 dataAreaSize } }
    else
      let mapFramebufferAddr := s.currentBrk s.handle.pid
      let brk := mapFramebufferAddr + (info.framebufferSize + 0x1000 - 1) / 0x1000 * 0x1000
      { s with
        currentBrk := Function.update s.currentBrk s.handle.pid brk
        copied := s.copied ++
          [(s.handle.buffer, ⟨mapFramebufferAddr, info.width, info.height, info.pitch⟩)] }
  | .write => { s with handle := { s.handle with err := ipcOperationNotSupported } }

/-- What a client stores. -/
def store (h : Handle) (req : Request) : Handle :=
  { h with pid := req.pid, buffer := req.buffer, size := req.size, operation := req.operation }

/-- A request of a client is served, and the client returns. -/
def exchange (info : VesaInfo) (s : State) (req : Request) : IpcErr × State :=
  let s := serve info { s with handle := store s.handle req }
  (s.handle.result, s)

/-- After some requests. -/
def served (info : VesaInfo) (s : State) (reqs : List Request) : State :=
  reqs.foldl (fun s req => (exchange info s req).2) s

variable {info : VesaInfo} {s : State} {req : Request}

/-- `err` is stored for a request that fails only. -/
theorem err_exchange : (exchange info s req).2.handle.err =
    if code req = ipcSuccess then s.handle.err else code req := by
  unfold exchange serve code
  rcases req with ⟨pid, buffer, size, operation⟩
  cases operation with
  | read =>
    dsimp only [store]
    split_ifs <;> simp_all [ipcBufferTooSmall, ipcSuccess]
  | write => rfl

theorem err_result (h : Handle) : h.result.err = h.err := by
  unfold Handle.result
  split_ifs with hzero
  · exact hzero.symm
  · rfl

/-- `err` is zero as long as no request has failed. -/
theorem err_served {brk : ℕ → UInt64} (reqs : List Request) :
    (served info (init brk) reqs).handle.err = ipcSuccess ↔ ∀ r ∈ reqs, code r = ipcSuccess := by
  induction reqs using List.reverseRecOn with
  | nil =>
    simp only [not_mem_nil, false_imp_iff, implies_true, iff_true]
    rfl
  | append_singleton reqs r ih =>
    rw [served, foldl_append, foldl_cons, foldl_nil, ← served, err_exchange,
      forall_mem_append, forall_mem_singleton]
    split_ifs with hr
    · rw [ih]
      exact (and_iff_left hr).symm
    · simp only [hr, and_false]

/-- **A client gets the code of its own request exactly if it fails, or no request has failed
before.** -/
theorem err_eq_code_iff (info : VesaInfo) (brk : ℕ → UInt64) (reqs : List Request) (req : Request) :
    (exchange info (served info (init brk) reqs) req).1.err = code req ↔
      code req ≠ ipcSuccess ∨ ∀ r ∈ reqs, code r = ipcSuccess := by
  have herr : (exchange info (served info (init brk) reqs) req).1.err =
      (exchange info (served info (init brk) reqs) req).2.handle.err := err_result _
  rw [herr, err_exchange]
  split_ifs with hreq
  · rw [hreq, err_served]
    simp
  · simp [hreq]

/-- **A read with a buffer of 32 bytes fails after another client's failure**, a read of 8 bytes or
a write. -/
theorem stale_err :
    code ⟨3, 0x1000, 32, .read⟩ = ipcSuccess ∧
    (exchange ⟨0x300000, 1024, 768, 4096⟩ (init fun _ => 0) ⟨3, 0x1000, 32, .read⟩).1.err =
      ipcSuccess ∧
    (exchange ⟨0x300000, 1024, 768, 4096⟩
      (served ⟨0x300000, 1024, 768, 4096⟩ (init fun _ => 0) [⟨4, 0x2000, 8, .read⟩])
      ⟨3, 0x1000, 32, .read⟩).1.err = ipcBufferTooSmall ∧
    (exchange ⟨0x300000, 1024, 768, 4096⟩
      (served ⟨0x300000, 1024, 768, 4096⟩ (init fun _ => 0) [⟨4, 0x2000, 8, .write⟩])
      ⟨3, 0x1000, 32, .read⟩).1.err = ipcOperationNotSupported := by
  refine ⟨by decide, ?_, ?_, ?_⟩ <;> rfl

/-! ### The exchange as an interleaving -/

/-- The statements with which the server answers the request in a handle. -/
def answer (h : Handle) : List (PortStmt ⊕ ClientStmt) :=
  match h.operation with
  | .read =>
    if tooSmall h.size then
      [.inl (.server (.reply ipcBufferTooSmall (BitVec.ofNat 32 dataAreaSize)))]
    else []
  | .write => [.inl (.server (.reply ipcOperationNotSupported h.size))]

/-- The server waits, the client sends its request, and the server receives it. -/
def send (req : Request) : List (PortStmt ⊕ ClientStmt) :=
  [.inl (.server .listen), .inl (.server .publish), .inr (.call req)] ++
    List.replicate 7 (.inr .next) ++ [.inl (.server .await), .inl (.server .finish)]

/-- The server answers the request in a handle, and the client returns. -/
def reply (h : Handle) : List (PortStmt ⊕ ClientStmt) :=
  answer h ++ .inl (.server .complete) :: List.replicate 3 (.inr .next)

/-- The port when the server has received a request. -/
def received (g : Port) (i : ℕ) (req : Request) : Port :=
  { g with
    handle := { store g.handle req with
      listening := false
      connectLock := true
      ipcEvent := some (g.wait + 1)
      ipcCompleted := some i }
    server := .serving
    wait := g.wait + 1
    ipcAwaitEvent := 0
    waitServerDone := Function.update g.waitServerDone i (some 0)
    holder := some i
    connected := g.connected ++ [(i, req)]
    returned := g.returned ++ [req] }

variable {g : Port} {i : ℕ} {last : Option IpcErr}

/-- The client takes the lock, stores its request and triggers the event of the server. -/
theorem connect_solo (hlock : g.handle.connectLock = false)
    (hevent : g.handle.ipcEvent = some g.wait) (hserver : g.server = .awaiting) :
    (List.replicate 7 (.inr .next)).foldlM (system.soloExec i) (g, .connect req) =
      some ({ g.connect i req with
        handle := { store g.handle req with connectLock := true, ipcCompleted := some i }
        ipcAwaitEvent := g.ipcAwaitEvent + 1 }, .holds .await req) := by
  have htake : system.soloExec i (g, .connect req) (.inr .next) =
      some (g.connect i req, .holds .pid req) := if_neg (by simp [hlock])
  have hstore : (List.replicate 5 (.inr .next)).foldlM (system.soloExec i)
      (g.connect i req, .holds .pid req) =
        some ({ g.connect i req with
          handle := { store g.handle req with connectLock := true, ipcCompleted := some i } },
          .holds .trigger req) := rfl
  rw [replicate_succ, foldlM_cons, htake, Option.bind_eq_bind, Option.bind_some, replicate_succ',
    foldlM_append, hstore, Option.bind_eq_bind, Option.bind_some]
  exact congrArg (fun g' => some (g', ClientPc.holds .await req)) (if_pos ⟨hevent, hserver⟩)

theorem send_solo (hserver : g.server = .idle) (hlock : g.handle.connectLock = false) :
    (send req).foldlM (system.soloExec i) (g, .out last) =
      some (received g i req, .holds .await req) := by
  have hlisten : [.inl (.server .listen), .inl (.server .publish), .inr (.call req)].foldlM
      (system.soloExec i) (g, .out last) =
        some ({ g with
          handle := { g.handle with listening := true, ipcEvent := some (g.wait + 1) }
          server := .awaiting
          wait := g.wait + 1
          ipcAwaitEvent := 0 }, .connect req) := by
    simp [System.soloExec, system, serverStep, ServerStmt.pc, hserver, clientStep]
  rw [send, foldlM_append, foldlM_append, hlisten, Option.bind_eq_bind, Option.bind_some,
    connect_solo]
  · rfl
  · exact hlock
  · rfl
  · rfl

/-- What a port and a client have of an exchange. -/
def outcome (p : Port × ClientPc) : ClientPc × ServerPc × Bool × BitVec 32 × BitVec 32 :=
  (p.2, p.1.server, p.1.handle.connectLock, p.1.handle.err, p.1.handle.size)

theorem reply_solo (hhandle : s.handle = g.handle) :
    ((reply (store s.handle req)).foldlM (system.soloExec i)
        (received g i req, .holds .await req)).map outcome =
      some (.out (some (exchange info s req).1), .idle, false,
        (exchange info s req).2.handle.err, (exchange info s req).2.handle.size) := by
  rcases req with ⟨pid, buffer, size, operation⟩
  -- the answer depends on the operation, and for a read on the size
  cases operation <;> by_cases hsmall : tooSmall size <;>
    simp [reply, answer, received, store, exchange, serve, hsmall, hhandle, replicate,
      System.soloExec, system, serverStep, ServerStmt.pc, clientStep, holderStep,
      Port.triggerIpcCompleted, Handle.result, outcome]

/-- **The exchange is an interleaving** of the statements of the client and the server. -/
theorem exchange_run {c : Conf ℕ Port ClientPc} (hserver : c.shared.server = .idle)
    (hlock : c.shared.handle.connectLock = false) (hloc : c.loc i = .out last)
    (hhandle : s.handle = c.shared.handle) :
    ∃ c', Run (system.Step fun _ _ => True) c
        ((send req ++ reply (store s.handle req)).map (System.soloAct i)) c' ∧
      c'.loc i = .out (some (exchange info s req).1) ∧
      c'.shared.server = .idle ∧ c'.shared.handle.connectLock = false ∧
      c'.shared.handle.err = (exchange info s req).2.handle.err ∧
      c'.shared.handle.size = (exchange info s req).2.handle.size := by
  obtain ⟨⟨g, pc⟩, hsolo, hout⟩ := Option.map_eq_some_iff.1
    (@reply_solo info s req c.shared i hhandle)
  simp only [outcome, Prod.mk.injEq] at hout
  obtain ⟨rfl, hidle, hfree, herr, hsize⟩ := hout
  have hall : (send req ++ reply (store s.handle req)).foldlM (system.soloExec i)
      (c.shared, c.loc i) = some (g, .out (some (exchange info s req).1)) := by
    rw [foldlM_append, hloc, send_solo hserver hlock]
    exact hsolo
  exact ⟨_, System.run_of_solo hall, Function.update_self .., hidle, hfree, herr, hsize⟩

end Vesa

end DripOS
