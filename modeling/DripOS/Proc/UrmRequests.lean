import DripOS.Lib.Interleave
import Mathlib.Data.Int.Notation

/-!
# Requests to the URM thread

`send_urm_request`, `send_urm_request_async`, `urm_thread` and `urm_runner` of `src/proc/urm.c`.  A
request is handed over in global variables.  The sender takes `urm_lock`, fills them in and triggers
`urm_request_event`; `urm_thread` reads them, creates a worker, clears them and releases the lock.
The worker serves the request, stores the result and triggers the event of the sender, which is
stored after `urm_request_event` was triggered.

This file has the steps and what the senders and the workers keep; `Proc/UrmDispatch.lean` has
`urm_thread` and the results.
-/

namespace DripOS

namespace Urm

/-- `urm_type_t`. -/
inductive RequestType where
  | killProcess
  | killThread
  | execve
  | killRunner
  deriving DecidableEq, Repr

/-- The threads that send requests, and the workers in the order of their creation. -/
inductive Tid where
  | thread (i : ℕ)
  | worker (n : ℕ)
  deriving DecidableEq, Repr

/-- A request. -/
structure Request where
  sender : Tid
  /-- What the data are. -/
  data : ℕ
  type : RequestType
  /-- The sender waits for the result: it has called `send_urm_request`. -/
  sync : Bool
  deriving DecidableEq, Repr

/-- What `urm_thread` takes from a request. -/
def Request.content (r : Request) : ℕ × RequestType := (r.data, r.type)

/-- `urm_runtime_params_t`, with the copy of the data.  Pointers are named by the requests for which
the events and the places for the results were allocated. -/
structure Params where
  data : ℕ
  doneEvent : Option ℕ
  returnVal : Option ℕ
  type : RequestType
  /-- Ghost: the request that had the lock. -/
  req : ℕ
  deriving DecidableEq, Repr

/-- What a sender has allocated, and what has happened to its request. -/
structure Reply where
  /-- `*event_to_wait`. -/
  event : ℕ
  /-- `*return_value`. -/
  value : ℤ
  freed : Bool
  /-- Ghost: the result, once the request was served. -/
  finished : Option ℤ
  /-- Ghost: how often the event was triggered. -/
  triggers : ℕ
  /-- Ghost: what `send_urm_request` has returned. -/
  returned : Option ℤ
  deriving DecidableEq, Repr

/-- Where `urm_thread` is. -/
inductive UrmPc where
  /-- In `await_event`. -/
  | awaiting
  /-- Before `switch (urm_type)`. -/
  | switch
  /-- Before the copy of the data. -/
  | copy
  /-- Before `urm_done_event` is read. -/
  | doneEvent (data : ℕ)
  /-- Before `urm_return` is read. -/
  | returnVal (data : ℕ) (doneEvent : Option ℕ)
  /-- Before `urm_type` is read again. -/
  | type (data : ℕ) (doneEvent returnVal : Option ℕ)
  /-- Before the worker is created. -/
  | create (params : Params)
  | resetDone
  | resetData
  | resetReturn
  | unlock
  deriving DecidableEq, Repr

/-- The statements of a sender that has `urm_lock`. -/
inductive FillStage where
  | data
  | type
  | trigger
  | alloc
  | doneEvent
  | returnVal
  deriving DecidableEq, Repr

/-- The statements of a sender that waits for the result. -/
inductive WaitStage where
  | await
  | read
  | free (value : ℤ)
  deriving DecidableEq, Repr

/-- The statements of a worker. -/
inductive RunStage where
  | exec
  | store (value : ℤ)
  | trigger
  /-- The worker asks for its end. -/
  | finish
  deriving DecidableEq, Repr

/-- Where a thread is. -/
inductive Pc where
  /-- In no call; or a worker that has not started. -/
  | idle
  | fills (stage : FillStage) (k : ℕ) (req : Request)
  | waits (stage : WaitStage) (k : ℕ) (req : Request)
  | runs (stage : RunStage) (params : Params)
  /-- The thread was killed, or has blocked itself for ever. -/
  | dead
  deriving DecidableEq, Repr

/-- The statements of a thread. -/
inductive Stmt where
  | send (sync : Bool) (data : ℕ) (type : RequestType)
  | next
  /-- The function of the request returns. -/
  | exec (value : ℤ)
  | die
  deriving DecidableEq, Repr

/-- The statements of `urm_thread`. -/
inductive UrmStmt where
  | next
  deriving DecidableEq, Repr

/-- The shared state. -/
structure Globals where
  urmLock : Bool
  urmData : Option ℕ
  urmType : RequestType
  urmRequestEvent : ℕ
  urmDoneEvent : Option ℕ
  urmReturn : Option ℕ
  urm : UrmPc
  /-- The parameters of the workers. -/
  spawned : List Params
  /-- What the senders have allocated. -/
  reply : ℕ → Reply
  /-- Ghost: the thread that has `urm_lock` and has not filled in its request. -/
  sending : Option Tid
  /-- Ghost: the requests whose senders got `urm_lock`. -/
  requests : List Request
  /-- Ghost: what `urm_thread` has dispatched. -/
  handled : List (ℕ × RequestType)
  /-- Ghost: a worker has written to the event or the result of another request, or to a freed one.
  -/
  stray : Bool

/-- What a thread does after a call. -/
def Tid.rest : Tid → Pc
  | .thread _ => .idle
  | .worker _ => .dead

namespace Globals

/-- `urm_lock` is taken. -/
def lock (g : Globals) (req : Request) : Globals :=
  { g with urmLock := true, sending := some req.sender, requests := g.requests ++ [req] }

/-- A change to what the sender of a request has allocated. -/
def setReply (g : Globals) (k : ℕ) (f : Reply → Reply) : Globals :=
  { g with reply := Function.update g.reply k (f (g.reply k)) }

/-- The pointer does not point to what the request of the worker has. -/
def strays (g : Globals) (k req : ℕ) : Bool := k ≠ req || (g.reply k).freed

end Globals

/-- The statements of a sender that has `urm_lock`. -/
def fillStep (t : Tid) (stage : FillStage) (k : ℕ) (req : Request) (g : Globals) : Globals × Pc :=
  match stage with
  | .data => ({ g with urmData := some req.data }, .fills .type k req)
  | .type => ({ g with urmType := req.type }, .fills .trigger k req)
  | .trigger =>
    if req.sync then
      ({ g with urmRequestEvent := g.urmRequestEvent + 1 }, .fills .alloc k req)
    else ({ g with urmRequestEvent := g.urmRequestEvent + 1, sending := none }, t.rest)
  | .alloc => (g.setReply k fun r => { r with event := 0, value := 0 }, .fills .doneEvent k req)
  | .doneEvent => ({ g with urmDoneEvent := some k }, .fills .returnVal k req)
  | .returnVal => ({ g with urmReturn := some k, sending := none }, .waits .await k req)

/-- The statements of a sender that waits. -/
def waitStep (t : Tid) (stage : WaitStage) (k : ℕ) (req : Request) (g : Globals) :
    Option (Globals × Pc) :=
  match stage with
  | .await =>
    if (g.reply k).event = 0 then none
    else some (g.setReply k fun r => { r with event := r.event - 1 }, .waits .read k req)
  | .read => some (g, .waits (.free (g.reply k).value) k req)
  | .free v =>
    some (g.setReply k fun r => { r with freed := true, returned := some v }, t.rest)

/-- A worker, from the end of the function of its request on. -/
def runStep (n : ℕ) (stage : RunStage) (p : Params) (g : Globals) : Option (Globals × Pc) :=
  match stage with
  | .exec => none
  | .store v =>
    match p.returnVal with
    | none => some (g, .runs .trigger p)
    | some k =>
      some ({ g.setReply k fun r => { r with value := v } with
        stray := g.stray || g.strays k p.req }, .runs .trigger p)
  | .trigger =>
    match p.doneEvent with
    | none => some (g, .runs .finish p)
    | some k =>
      some ({ g.setReply k fun r => { r with event := r.event + 1, triggers := r.triggers + 1 } with
        stray := g.stray || g.strays k p.req }, .runs .finish p)
  | .finish =>
    if g.urmLock then none
    else
      let req : Request := ⟨.worker n, n, .killRunner, false⟩
      some (g.lock req, .fills .data g.requests.length req)

/-- The statements of a thread. -/
def threadStep (t : Tid) (a : Stmt) (g : Globals) (pc : Pc) : Option (Globals × Pc) :=
  match a, pc, t with
  | .send sync data type, .idle, .thread i =>
    if g.urmLock then none
    else
      let req : Request := ⟨.thread i, data, type, sync⟩
      some (g.lock req, .fills .data g.requests.length req)
  | .next, .idle, .worker n => g.spawned[n]?.map fun p => (g, .runs .exec p)
  | .next, .fills stage k req, t => some (fillStep t stage k req g)
  | .next, .waits stage k req, t => waitStep t stage k req g
  | .exec v, .runs .exec p, _ =>
    if p.type = .killRunner then some (g, .runs .trigger p)
    else some (g.setReply p.req fun r => { r with finished := some v }, .runs (.store v) p)
  | .next, .runs stage p, .worker n => runStep n stage p g
  | .die, _, _ => some (g, .dead)
  | _, _, _ => none

/-- The statements of `urm_thread`. -/
def urmStep (g : Globals) : Option Globals :=
  match g.urm with
  | .awaiting =>
    if g.urmRequestEvent = 0 then none
    else some { g with urm := .switch, urmRequestEvent := g.urmRequestEvent - 1 }
  | .switch =>
    if g.urmType = .killRunner then
      -- `urm_kill_process`, in `urm_thread` itself
      g.urmData.map fun data =>
        { g with urm := .resetDone, handled := g.handled ++ [(data, .killRunner)] }
    else some { g with urm := .copy }
  | .copy => g.urmData.map fun data => { g with urm := .doneEvent data }
  | .doneEvent data => some { g with urm := .returnVal data g.urmDoneEvent }
  | .returnVal data doneEvent => some { g with urm := .type data doneEvent g.urmReturn }
  | .type data doneEvent returnVal =>
    some { g with urm := .create ⟨data, doneEvent, returnVal, g.urmType, g.requests.length - 1⟩ }
  | .create p =>
    some { g with
      urm := .resetDone
      spawned := g.spawned ++ [p]
      handled := g.handled ++ [(p.data, p.type)] }
  | .resetDone => some { g with urm := .resetData, urmDoneEvent := none }
  | .resetData => some { g with urm := .resetReturn, urmData := none }
  | .resetReturn => some { g with urm := .unlock, urmReturn := none }
  | .unlock => some { g with urm := .awaiting, urmLock := false }

/-- Threads that send requests, `urm_thread` and its workers. -/
def system : System Tid Globals Pc Stmt UrmStmt := ⟨fun _ => urmStep, threadStep⟩

/-- No request was sent. -/
def init : Conf Tid Globals Pc :=
  ⟨⟨false, none, .killProcess, 0, none, none, .awaiting, [], fun _ => ⟨0, 0, false, none, 0, none⟩,
    none, [], [], false⟩, fun _ => .idle⟩

/-- A thread that can be killed without harm to a request. -/
def Pc.Killable (t : Tid) : Pc → Bool
  | .idle =>
    match t with
    | .thread _ => true
    | .worker _ => false
  | .waits _ _ _ | .dead => true
  | .fills _ _ _ | .runs _ _ => false

/-- `urm_thread` leaves `await_event` only after the request was filled in; nobody waits for a
`URM_KILL_RUNNER`; and no thread is killed while it fills in or serves a request. -/
def FilledIn (c : Conf Tid Globals Pc) : Act Tid Stmt UrmStmt → Prop
  | .shared .next => c.shared.urm = .awaiting → c.shared.sending = none
  | .proc _ (.send sync _ type) => sync = true → type ≠ .killRunner
  | .proc t .die => (c.loc t).Killable t
  | _ => True

instance (c : Conf Tid Globals Pc) (l : Act Tid Stmt UrmStmt) : Decidable (FilledIn c l) := by
  unfold FilledIn
  split <;> infer_instance

/-! ### The invariant -/

/-- The pointers that the sender of a request stores. -/
def Request.pointer (r : Request) (k : ℕ) : Option ℕ := if r.sync then some k else none

/-- The worker has what its request needs. -/
def Serves (p : Params) (r : Request) : Prop :=
  p.data = r.data ∧ p.doneEvent = r.pointer p.req ∧ p.returnVal = r.pointer p.req ∧ p.type = r.type

/-- The request in the global variables. -/
structure Filled (g : Globals) (rs : List Request) (r : Request) : Prop where
  event : g.urmRequestEvent = 0
  data : g.urmData = some r.data
  type : g.urmType = r.type
  doneEvent : g.urmDoneEvent = r.pointer rs.length
  returnVal : g.urmReturn = r.pointer rs.length
  handled : g.handled = rs.map Request.content

/-- How far `urm_thread` is with the last request. -/
def Dispatch (g : Globals) (rs : List Request) (r : Request) : UrmPc → Prop
  | .awaiting => g.urmRequestEvent = 1 ∧ Filled { g with urmRequestEvent := 0 } rs r
  | .switch => Filled g rs r
  | .copy => Filled g rs r ∧ r.type ≠ .killRunner
  | .doneEvent data => Filled g rs r ∧ r.type ≠ .killRunner ∧ data = r.data
  | .returnVal data doneEvent =>
    Filled g rs r ∧ r.type ≠ .killRunner ∧ data = r.data ∧ doneEvent = r.pointer rs.length
  | .type data doneEvent returnVal =>
    Filled g rs r ∧ r.type ≠ .killRunner ∧ data = r.data ∧ doneEvent = r.pointer rs.length ∧
      returnVal = r.pointer rs.length
  | .create p => Filled g rs r ∧ r.type ≠ .killRunner ∧ Serves p r ∧ p.req = rs.length
  | .resetDone => g.urmRequestEvent = 0 ∧ g.handled = g.requests.map Request.content
  | .resetData =>
    g.urmRequestEvent = 0 ∧ g.handled = g.requests.map Request.content ∧ g.urmDoneEvent = none
  | .resetReturn =>
    g.urmRequestEvent = 0 ∧ g.handled = g.requests.map Request.content ∧ g.urmDoneEvent = none
  | .unlock =>
    g.urmRequestEvent = 0 ∧ g.handled = g.requests.map Request.content ∧ g.urmDoneEvent = none ∧
      g.urmReturn = none

/-- What is true of the global variables. -/
structure SlotOk (g : Globals) : Prop where
  free : g.urmLock = false → g.sending = none ∧ g.urm = .awaiting ∧ g.urmRequestEvent = 0 ∧
    g.urmDoneEvent = none ∧ g.urmReturn = none ∧ g.handled = g.requests.map Request.content
  filling : ∀ t, g.sending = some t → g.urmLock = true ∧ g.urm = .awaiting
  filled : g.urmLock = true → g.sending = none →
    ∃ rs r, g.requests = rs ++ [r] ∧ Dispatch g rs r g.urm

/-- What is true of the workers. -/
structure WorkersOk (g : Globals) : Prop where
  serves : ∀ (n : ℕ) p, g.spawned[n]? = some p →
    p.req < g.handled.length ∧ p.type ≠ .killRunner ∧ ∃ r, g.requests[p.req]? = some r ∧ Serves p r
  unique : ∀ (n m : ℕ) p q, g.spawned[n]? = some p → g.spawned[m]? = some q → p.req = q.req → n = m
  served : ∀ (k : ℕ) r, k < g.handled.length → g.requests[k]? = some r → r.type ≠ .killRunner →
    ∃ (n : ℕ) (p : _), g.spawned[n]? = some p ∧ p.req = k
  sync : ∀ (k : ℕ) r, g.requests[k]? = some r → r.sync = true → r.type ≠ .killRunner

/-- What is true of the events and the results. -/
structure RepliesOk (g : Globals) : Prop where
  once : ∀ k, (g.reply k).triggers ≤ 1
  value : ∀ k, (g.reply k).triggers = 1 → (g.reply k).finished = some (g.reply k).value
  freed : ∀ k, (g.reply k).freed = true → (g.reply k).triggers = 1
  fresh : ∀ k, g.handled.length ≤ k → (g.reply k).triggers = 0 ∧ (g.reply k).finished = none
  returned : ∀ k v, (g.reply k).returned = some v →
    (g.reply k).triggers = 1 ∧ (g.reply k).finished = some v
  stray : g.stray = false

structure GlobalsOk (g : Globals) : Prop where
  slot : SlotOk g
  workers : WorkersOk g
  replies : RepliesOk g

/-- What the sender has filled in before a statement. -/
def FillStage.Done (g : Globals) (k : ℕ) (req : Request) : FillStage → Prop
  | .data => g.urmRequestEvent = 0 ∧ g.urmDoneEvent = none ∧ g.urmReturn = none
  | .type =>
    g.urmRequestEvent = 0 ∧ g.urmDoneEvent = none ∧ g.urmReturn = none ∧ g.urmData = some req.data
  | .trigger =>
    g.urmRequestEvent = 0 ∧ g.urmDoneEvent = none ∧ g.urmReturn = none ∧
      g.urmData = some req.data ∧ g.urmType = req.type
  | .alloc =>
    g.urmRequestEvent = 1 ∧ g.urmReturn = none ∧ g.urmData = some req.data ∧
      g.urmType = req.type ∧ req.sync = true
  | .doneEvent =>
    g.urmRequestEvent = 1 ∧ g.urmReturn = none ∧ g.urmData = some req.data ∧
      g.urmType = req.type ∧ req.sync = true ∧ (g.reply k).event = 0
  | .returnVal =>
    g.urmRequestEvent = 1 ∧ g.urmDoneEvent = some k ∧ g.urmData = some req.data ∧
      g.urmType = req.type ∧ req.sync = true ∧ (g.reply k).event = 0

/-- What the sender of the last request knows. -/
def Filling (g : Globals) (k : ℕ) (req : Request) (stage : FillStage) : Prop :=
  (∃ rs, g.requests = rs ++ [req] ∧ g.handled = rs.map Request.content ∧ k = rs.length) ∧
    stage.Done g k req

/-- What a sender that waits knows. -/
def WaitStage.Knows (r : Reply) : WaitStage → Prop
  | .await => r.event = r.triggers
  | .read => r.triggers = 1
  | .free v => r.triggers = 1 ∧ r.finished = some v

/-- What a worker knows. -/
def RunStage.Knows (p : Params) (r : Reply) : RunStage → Prop
  | .exec => r.triggers = 0 ∧ r.finished = none
  | .store v => r.triggers = 0 ∧ r.finished = some v
  | .trigger => r.triggers = 0 ∧ (p.returnVal ≠ none → r.finished = some r.value)
  | .finish => p.doneEvent ≠ none → r.triggers = 1

/-- The part of an assertion that is about the requests of the thread. -/
def SendOk (t : Tid) (g : Globals) : Pc → Prop
  | .fills stage k req => req.sender = t ∧ g.sending = some t ∧ Filling g k req stage
  | .waits stage k req => req.sender = t ∧ g.sending ≠ some t ∧ g.requests[k]? = some req ∧
      stage.Knows (g.reply k)
  | _ => g.sending ≠ some t

/-- The part of an assertion about the request that a worker serves. -/
def RunOk (g : Globals) : Tid → Pc → Prop
  | .thread _, .runs _ _ => False
  | .thread _, _ => True
  | .worker n, .idle =>
    ∀ p, g.spawned[n]? = some p → RunStage.exec.Knows p (g.reply p.req)
  | .worker n, .runs stage p => g.spawned[n]? = some p ∧ stage.Knows p (g.reply p.req)
  | .worker n, _ => ∃ p, g.spawned[n]? = some p ∧ RunStage.finish.Knows p (g.reply p.req)

/-- What is true of a thread. -/
structure PcOk (t : Tid) (g : Globals) (pc : Pc) : Prop where
  send : SendOk t g pc
  run : RunOk g t pc

variable {t u : Tid} {g g' : Globals} {pc pc' : Pc} {k i : ℕ} {req : Request} {p : Params}
  {stage : FillStage} {f : Reply → Reply}

@[simp] theorem reply_setReply_self (g : Globals) (k : ℕ) (f : Reply → Reply) :
    (g.setReply k f).reply k = f (g.reply k) := Function.update_self _ _ _

theorem reply_setReply_of_ne (g : Globals) (f : Reply → Reply) (h : i ≠ k) :
    (g.setReply k f).reply i = g.reply i := Function.update_of_ne h _ _

theorem Request.pointer_eq (h : req.pointer k = some i) : i = k := by
  unfold pointer at h
  split_ifs at h
  exact (Option.some.inj h).symm

theorem Filled.setUrm {rs : List Request} {r : Request} (h : Filled g rs r) (pc : UrmPc) :
    Filled { g with urm := pc } rs r :=
  ⟨h.event, h.data, h.type, h.doneEvent, h.returnVal, h.handled⟩

/-- A worker does not notice a step that leaves what it knows as it is. -/
theorem RunOk.frame (h : RunOk g t pc) (hspawned : g'.spawned = g.spawned)
    (hreply : ∀ (n : ℕ) p (stage : RunStage), t = .worker n → g.spawned[n]? = some p →
      stage.Knows p (g.reply p.req) → stage.Knows p (g'.reply p.req)) : RunOk g' t pc := by
  cases t with
  | thread i => cases pc <;> exact h
  | worker n =>
    cases pc with
    | idle =>
      intro p hp
      rw [hspawned] at hp
      exact hreply n p _ rfl hp (h p hp)
    | runs stage p =>
      obtain ⟨hp, hk⟩ := h
      exact ⟨by rw [hspawned, hp], hreply n p _ rfl hp hk⟩
    | fills _ _ _ | waits _ _ _ | dead =>
      obtain ⟨p, hp, hk⟩ := h
      exact ⟨p, by rw [hspawned, hp], hreply n p _ rfl hp hk⟩

/-- A thread that is not filling in a request does not notice a step that leaves what it knows as it
is. -/
theorem SendOk.frame (h : SendOk t g pc) (hs : g.sending ≠ some t) (hs' : g'.sending ≠ some t)
    (hreq : ∀ (k : ℕ) r, g.requests[k]? = some r → g'.requests[k]? = some r)
    (hreply : ∀ (stage : WaitStage) (k : ℕ) req, req.sender = t → g.requests[k]? = some req →
      stage.Knows (g.reply k) → stage.Knows (g'.reply k)) : SendOk t g' pc := by
  cases pc with
  | fills stage k req => exact absurd h.2.1 hs
  | waits stage k req =>
    obtain ⟨hsender, -, hk, hknows⟩ := h
    exact ⟨hsender, hs', hreq k req hk, hreply stage k req hsender hk hknows⟩
  | idle | runs _ _ | dead => exact hs'

/-- What a step of a thread has to keep. -/
structure Kept (t : Tid) (g g' : Globals) (pc' : Pc) : Prop where
  ok : GlobalsOk g'
  own : PcOk t g' pc'
  others : ∀ u pcu, u ≠ t → PcOk u g pcu → PcOk u g' pcu

/-! ### Filling in a request -/

theorem getElem?_append_cases {α : Type*} {l m : List α} {a : α} (h : (l ++ m)[i]? = some a) :
    l[i]? = some a ∨ (a ∈ m ∧ l.length ≤ i) := by
  rcases Nat.lt_or_ge i l.length with hi | hi
  · exact .inl (by rwa [List.getElem?_append_left hi] at h)
  · rw [List.getElem?_append_right hi] at h
    exact .inr ⟨List.mem_of_getElem? h, hi⟩

theorem getElem?_append_of_some {α : Type*} {l : List α} {a : α} (h : l[i]? = some a)
    (m : List α) : (l ++ m)[i]? = some a := by
  rw [List.getElem?_append_left (List.getElem?_eq_some_iff.1 h).1, h]

theorem Kept.lock (hok : GlobalsOk g) (hfree : g.urmLock = false) (ht : req.sender = t)
    (hsync : req.sync = true → req.type ≠ .killRunner)
    (hrun : RunOk g t (.fills .data g.requests.length req)) :
    Kept t g (g.lock req) (.fills .data g.requests.length req) := by
  obtain ⟨hsending, hurm, hevent, hdone, hreturn, hhandled⟩ := hok.slot.free hfree
  have hlen : g.handled.length = g.requests.length := by rw [hhandled, List.length_map]
  refine ⟨⟨⟨(by simp [Globals.lock]), fun _ _ => ⟨rfl, hurm⟩, (by simp [Globals.lock])⟩, ?_, ?_⟩,
    ⟨?_, ?_⟩, ?_⟩
  · refine ⟨fun n p hp => ?_, hok.workers.unique, fun k r hk hr htype => ?_, fun k r hr hs => ?_⟩
    · obtain ⟨hlt, htype, r, hr, hserves⟩ := hok.workers.serves n p hp
      exact ⟨hlt, htype, r, getElem?_append_of_some hr _, hserves⟩
    · have hk : k < g.handled.length := hk
      rw [Globals.lock, List.getElem?_append_left (hlen ▸ hk)] at hr
      exact hok.workers.served k r hk hr htype
    · rcases getElem?_append_cases hr with hr | ⟨hr, -⟩
      · exact hok.workers.sync k r hr hs
      · cases List.mem_singleton.1 hr
        exact hsync hs
  · exact ⟨hok.replies.once, hok.replies.value, hok.replies.freed, hok.replies.fresh,
      hok.replies.returned, hok.replies.stray⟩
  · exact ⟨ht, by rw [← ht]; rfl, ⟨g.requests, rfl, hhandled, rfl⟩, hevent, hdone, hreturn⟩
  · exact hrun.frame rfl fun _ _ _ _ _ h => h
  · intro u pcu hne hu
    refine ⟨hu.send.frame (by simp [hsending]) ?_ (fun k r hr => getElem?_append_of_some hr _)
      fun _ _ _ _ _ h => h, hu.run.frame rfl fun _ _ _ _ _ h => h⟩
    rw [← ht] at hne
    simp [Globals.lock, hne.symm]

/-- The thread sends a request, or waits for its result. -/
def Pc.sends : Pc → Bool
  | .fills _ _ _ | .waits _ _ _ => true
  | _ => false

/-- A worker that sends a request has served its own. -/
theorem runOk_sends (h : pc.sends) : RunOk g t pc ↔ RunOk g t t.rest := by
  cases pc with
  | fills _ _ _ | waits _ _ _ => cases t <;> exact Iff.rfl
  | idle | runs _ _ | dead => cases h

theorem RunOk.sends (h : RunOk g t pc) (hpc : pc.sends) (hpc' : pc'.sends) : RunOk g t pc' :=
  (runOk_sends hpc').2 ((runOk_sends hpc).1 h)

theorem Kept.fill {stage' : FillStage} (hok : GlobalsOk g) (hc : PcOk t g (.fills stage k req))
    (hsame : g' = { g with
      urmData := g'.urmData
      urmType := g'.urmType
      urmRequestEvent := g'.urmRequestEvent
      urmDoneEvent := g'.urmDoneEvent }) (hdone : stage.Done g k req → stage'.Done g' k req) :
    Kept t g g' (.fills stage' k req) := by
  obtain ⟨⟨hsender, hsending, hlast, hstage⟩, hrun⟩ := hc
  obtain ⟨hlock, hurm⟩ := hok.slot.filling t hsending
  have hdone' := hdone hstage
  rw [hsame] at hdone' ⊢
  refine ⟨⟨⟨fun h => ?_, fun _ _ => ⟨hlock, hurm⟩, fun _ h => ?_⟩, ?_, ?_⟩, ⟨?_, ?_⟩, ?_⟩
  · cases hlock.symm.trans h
  · cases hsending.symm.trans h
  · exact ⟨hok.workers.serves, hok.workers.unique, hok.workers.served, hok.workers.sync⟩
  · exact ⟨hok.replies.once, hok.replies.value, hok.replies.freed, hok.replies.fresh,
      hok.replies.returned, hok.replies.stray⟩
  · exact ⟨hsender, hsending, hlast, hdone'⟩
  · exact (hrun.sends rfl rfl).frame rfl fun _ _ _ _ _ h => h
  · intro u pcu hne hu
    have hs : g.sending ≠ some u := by simp [hsending, hne.symm]
    exact ⟨hu.send.frame hs hs (fun _ _ h => h) fun _ _ _ _ _ h => h,
      hu.run.frame rfl fun _ _ _ _ _ h => h⟩

theorem Kept.filled (hok : GlobalsOk g) (hc : PcOk t g (.fills stage k req))
    (hsame : g' = { g with
      urmRequestEvent := g'.urmRequestEvent
      urmReturn := g'.urmReturn
      sending := none })
    (hdispatch : ∀ rs, g.requests = rs ++ [req] → g.handled = rs.map Request.content →
      k = rs.length → Dispatch g' rs req .awaiting) (hsend : SendOk t g' pc')
    (hrun : RunOk g t pc') : Kept t g g' pc' := by
  obtain ⟨⟨hsender, hsending, ⟨rs, hrs, hhandled, hk⟩, hstage⟩, -⟩ := hc
  obtain ⟨hlock, hurm⟩ := hok.slot.filling t hsending
  have hdispatch' : Dispatch g' rs req g.urm := by
    rw [hurm]
    exact hdispatch rs hrs hhandled hk
  rw [hsame] at hdispatch' hsend ⊢
  refine ⟨⟨⟨fun h => ?_, (by simp), fun _ _ => ⟨rs, req, hrs, hdispatch'⟩⟩, ?_, ?_⟩,
    ⟨hsend, hrun.frame rfl fun _ _ _ _ _ h => h⟩, ?_⟩
  · cases hlock.symm.trans h
  · exact ⟨hok.workers.serves, hok.workers.unique, hok.workers.served, hok.workers.sync⟩
  · exact ⟨hok.replies.once, hok.replies.value, hok.replies.freed, hok.replies.fresh,
      hok.replies.returned, hok.replies.stray⟩
  · intro u pcu hne hu
    have hs : g.sending ≠ some u := by simp [hsending, hne.symm]
    exact ⟨hu.send.frame hs (by simp) (fun _ _ h => h) fun _ _ _ _ _ h => h,
      hu.run.frame rfl fun _ _ _ _ _ h => h⟩

/-! ### Events and results -/

/-- Only what is true of the changed request has to be seen to. -/
theorem RepliesOk.setReply (h : RepliesOk g) (honce : (f (g.reply k)).triggers ≤ 1)
    (hvalue : (f (g.reply k)).triggers = 1 → (f (g.reply k)).finished = some (f (g.reply k)).value)
    (hfreed : (f (g.reply k)).freed = true → (f (g.reply k)).triggers = 1)
    (hfresh : g.handled.length ≤ k → (f (g.reply k)).triggers = 0 ∧ (f (g.reply k)).finished = none)
    (hreturned : ∀ v, (f (g.reply k)).returned = some v →
      (f (g.reply k)).triggers = 1 ∧ (f (g.reply k)).finished = some v) :
    RepliesOk (g.setReply k f) := by
  have hcase {P : ℕ → Reply → Prop} (hk : P k (f (g.reply k))) (hall : ∀ i, P i (g.reply i))
      (i : ℕ) : P i ((g.setReply k f).reply i) := by
    rcases eq_or_ne i k with rfl | hi
    · rwa [reply_setReply_self]
    · rw [reply_setReply_of_ne g f hi]
      exact hall i
  exact ⟨hcase (P := fun _ r => r.triggers ≤ 1) honce h.once,
    hcase (P := fun _ r => r.triggers = 1 → r.finished = some r.value) hvalue h.value,
    hcase (P := fun _ r => r.freed = true → r.triggers = 1) hfreed h.freed,
    hcase (P := fun i r => g.handled.length ≤ i → r.triggers = 0 ∧ r.finished = none) hfresh
      h.fresh,
    hcase (P := fun _ r => ∀ v, r.returned = some v → r.triggers = 1 ∧ r.finished = some v)
      hreturned h.returned, h.stray⟩

theorem SlotOk.setReply (h : SlotOk g) (k : ℕ) (f : Reply → Reply) : SlotOk (g.setReply k f) := by
  refine ⟨h.free, h.filling, fun hlock hsending => ?_⟩
  obtain ⟨rs, r, hrs, hdispatch⟩ := h.filled hlock hsending
  refine ⟨rs, r, hrs, ?_⟩
  have hfilled {g : Globals} (hf : Filled g rs r) : Filled (g.setReply k f) rs r :=
    ⟨hf.event, hf.data, hf.type, hf.doneEvent, hf.returnVal, hf.handled⟩
  show Dispatch (g.setReply k f) rs r g.urm
  cases hurm : g.urm <;> rw [hurm] at hdispatch
  case awaiting =>
    exact ⟨hdispatch.1, hfilled (g := { g with urmRequestEvent := 0 }) hdispatch.2⟩
  case switch => exact hfilled hdispatch
  case copy | doneEvent | returnVal | type | create =>
    exact ⟨hfilled hdispatch.1, hdispatch.2⟩
  case resetDone | resetData | resetReturn | unlock => exact hdispatch

/-- What a sender has filled in does not depend on the other requests. -/
theorem FillStage.Done.setReply (h : stage.Done g k req) (hne : k ≠ i) :
    stage.Done (g.setReply i f) k req := by
  have hreply := reply_setReply_of_ne g f hne
  cases stage with
  | data | type | trigger | alloc => exact h
  | doneEvent | returnVal =>
    obtain ⟨h1, h2, h3, h4, h5, h6⟩ := h
    exact ⟨h1, h2, h3, h4, h5, by rw [hreply, h6]⟩

variable (hok : GlobalsOk g)
include hok

/-- A change to one request is seen by its sender and its worker only. -/
theorem Kept.setReply (hreplies : RepliesOk (g.setReply k f)) (hown : PcOk t (g.setReply k f) pc')
    (hfill : k < g.handled.length ∨ g.sending = some t)
    (hwait : ∀ stage : WaitStage, ∀ r, g.requests[k]? = some r → r.sender ≠ t →
      stage.Knows (g.reply k) → stage.Knows (f (g.reply k)))
    (hworker : ∀ (n : ℕ) p (stage : RunStage), .worker n ≠ t → g.spawned[n]? = some p → p.req = k →
      stage.Knows p (g.reply k) → stage.Knows p (f (g.reply k))) :
    Kept t g (g.setReply k f) pc' := by
  refine ⟨⟨hok.slot.setReply k f, ?_, hreplies⟩, hown, fun u pcu hne hu => ⟨?_, ?_⟩⟩
  · exact ⟨hok.workers.serves, hok.workers.unique, hok.workers.served, hok.workers.sync⟩
  · cases pcu with
    | fills stage k' req =>
      obtain ⟨hsender, hsending, ⟨rs, hrs, hhandled, rfl⟩, hdone⟩ := hu.send
      refine ⟨hsender, hsending, ⟨rs, hrs, hhandled, rfl⟩, hdone.setReply ?_⟩
      rcases hfill with hlt | hs
      · rintro rfl
        simp [hhandled] at hlt
      · exact absurd (Option.some.inj (hsending.symm.trans hs)) hne
    | waits stage k' req =>
      obtain ⟨hsender, hsending, hk', hknows⟩ := hu.send
      refine ⟨hsender, hsending, hk', ?_⟩
      rcases eq_or_ne k' k with rfl | hkk
      · rw [reply_setReply_self]
        exact hwait stage req hk' (hsender.trans_ne hne) hknows
      · rwa [reply_setReply_of_ne g f hkk]
    | idle | runs _ _ | dead => exact hu.send
  · refine hu.run.frame rfl fun n p stage hn hp hknows => ?_
    rcases eq_or_ne p.req k with rfl | hkk
    · rw [reply_setReply_self]
      exact hworker n p stage (hn ▸ hne) hp rfl hknows
    · rwa [reply_setReply_of_ne g f hkk]

theorem fillStep_kept (hc : PcOk t g (.fills stage k req))
    (h : fillStep t stage k req g = (g', pc')) : Kept t g g' pc' := by
  obtain ⟨hsender, hsending, ⟨rs, hrs, hhandled, hk⟩, hdone⟩ := hc.send
  have hlast : g.requests[k]? = some req := by rw [hrs, hk, List.getElem?_concat_length]
  have hlen : g.handled.length = k := by rw [hhandled, List.length_map, hk]
  obtain ⟨htriggers, hfinished⟩ := hok.replies.fresh k (Nat.le_of_eq hlen)
  cases stage with
  | data =>
    cases h
    exact .fill hok hc rfl fun ⟨h1, h2, h3⟩ => ⟨h1, h2, h3, rfl⟩
  | type =>
    cases h
    exact .fill hok hc rfl fun ⟨h1, h2, h3, h4⟩ => ⟨h1, h2, h3, h4, rfl⟩
  | trigger =>
    obtain ⟨hevent, hdoneEvent, hreturn, hdata, htype⟩ := hdone
    dsimp only [fillStep] at h
    split_ifs at h with hsync <;> cases h
    · exact .fill hok hc rfl fun _ => ⟨by rw [hevent], hreturn, hdata, htype, hsync⟩
    · refine .filled hok hc rfl
        (fun rs' _ hhandled' _ => ⟨by rw [hevent], rfl, hdata, htype, ?_, ?_, hhandled'⟩) ?_
        ((runOk_sends rfl).1 hc.run)
      · simp [Request.pointer, hsync, hdoneEvent]
      · simp [Request.pointer, hsync, hreturn]
      · cases t <;> simp [Tid.rest, SendOk]
  | alloc =>
    cases h
    refine .setReply hok ?_ ⟨⟨hsender, hsending, ⟨rs, hrs, hhandled, hk⟩, ?_⟩, ?_⟩ (.inr hsending)
      ?_ ?_
    · refine hok.replies.setReply (hok.replies.once k) (fun h => ?_) (hok.replies.freed k)
        (hok.replies.fresh k) (hok.replies.returned k)
      cases htriggers.symm.trans h
    · obtain ⟨h1, h2, h3, h4, h5⟩ := hdone
      exact ⟨h1, h2, h3, h4, h5, by rw [reply_setReply_self]⟩
    · refine (hc.run.sends rfl rfl).frame rfl fun n p stage _ hp hknows => ?_
      have hlt := (hok.workers.serves n p hp).1
      rwa [reply_setReply_of_ne g _ (by omega)]
    · intro stage r hr hne
      cases hr.symm.trans hlast
      exact absurd hsender hne
    · intro n p stage _ hp hpk
      have hlt := (hok.workers.serves n p hp).1
      omega
  | doneEvent =>
    cases h
    exact .fill hok hc rfl fun ⟨h1, h2, h3, h4, h5, h6⟩ => ⟨h1, rfl, h3, h4, h5, h6⟩
  | returnVal =>
    obtain ⟨hevent, hdoneEvent, hdata, htype, hsync, hzero⟩ := hdone
    cases h
    refine .filled hok hc rfl (fun rs' _ hhandled' hk' => ⟨hevent, rfl, hdata, htype, ?_, ?_,
      hhandled'⟩) ⟨hsender, (by simp), hlast, hzero.trans htriggers.symm⟩ (hc.run.sends rfl rfl)
    · simp [Request.pointer, hsync, hdoneEvent, hk']
    · simp [Request.pointer, hsync, hk']

/-- A sender changes its own event or result, after its event was triggered. -/
theorem Kept.waits {stage : WaitStage} (hc : PcOk t g (.waits stage k req))
    (htriggers : (g.reply k).triggers = 1)
    (hsame : (f (g.reply k)).triggers = (g.reply k).triggers ∧
      (f (g.reply k)).finished = (g.reply k).finished ∧ (f (g.reply k)).value = (g.reply k).value)
    (hreturned : ∀ v, (f (g.reply k)).returned = some v → (g.reply k).finished = some v)
    (hown : SendOk t (g.setReply k f) pc') (hrun : RunOk g t pc') :
    Kept t g (g.setReply k f) pc' := by
  obtain ⟨hsender, -, hreq, -⟩ := hc.send
  obtain ⟨htr, hfin, hval⟩ := hsame
  have hlt : k < g.handled.length := by
    by_contra hge
    cases htriggers.symm.trans (hok.replies.fresh k (Nat.le_of_not_lt hge)).1
  have hknows (p : Params) (stage : RunStage) :
      stage.Knows p (g.reply k) → stage.Knows p (f (g.reply k)) := by
    cases stage <;> simp only [RunStage.Knows, htr, hfin, hval] <;> exact id
  refine .setReply hok ?_ ⟨hown, ?_⟩ (.inl hlt) ?_ fun n p stage _ _ _ => hknows p stage
  · refine hok.replies.setReply (by omega) (fun _ => ?_) (fun _ => by omega) (fun h => by omega)
      fun v hv => ⟨by omega, hfin.trans (hreturned v hv)⟩
    rw [hfin, hval]
    exact hok.replies.value k htriggers
  · refine hrun.frame rfl fun n p stage _ _ h => ?_
    rcases eq_or_ne p.req k with rfl | hne
    · rw [reply_setReply_self]
      exact hknows p stage h
    · rwa [reply_setReply_of_ne g f hne]
  · intro stage r hr hne
    cases hr.symm.trans hreq
    exact absurd hsender hne

theorem waitStep_kept {stage : WaitStage} (hc : PcOk t g (.waits stage k req))
    (h : waitStep t stage k req g = some (g', pc')) : Kept t g g' pc' := by
  obtain ⟨hsender, hsending, hreq, hknows⟩ := hc.send
  cases stage with
  | await =>
    have hevent : (g.reply k).event = (g.reply k).triggers := hknows
    have honce := hok.replies.once k
    dsimp only [waitStep] at h
    split_ifs at h with hzero
    cases h
    refine .waits hok hc (by omega) ⟨rfl, rfl, rfl⟩ (fun v hv => (hok.replies.returned k v hv).2)
      ⟨hsender, hsending, hreq, ?_⟩ (hc.run.sends rfl rfl)
    rw [reply_setReply_self]
    show (g.reply k).triggers = 1
    omega
  | read =>
    cases h
    refine ⟨hok, ⟨⟨hsender, hsending, hreq, hknows, hok.replies.value k hknows⟩,
      hc.run.sends rfl rfl⟩, fun _ _ _ h => h⟩
  | free v =>
    obtain ⟨htriggers, hfinished⟩ := hknows
    cases h
    refine .waits hok hc htriggers ⟨rfl, rfl, rfl⟩ (fun w hw => ?_) ?_ ((runOk_sends rfl).1 hc.run)
    · cases hw
      exact hfinished
    · cases t <;> exact hsending

/-! ### The workers -/

/-- A worker changes its own request, before it triggers the event. -/
theorem Kept.runs {n : ℕ} {stage stage' : RunStage} (hc : PcOk (.worker n) g (.runs stage p))
    (htriggers : (g.reply p.req).triggers = 0) (hown : stage'.Knows p (f (g.reply p.req)))
    (honce : (f (g.reply p.req)).triggers ≤ 1)
    (hvalue : (f (g.reply p.req)).triggers = 1 →
      (f (g.reply p.req)).finished = some (f (g.reply p.req)).value)
    (hevent : (g.reply p.req).event = 0 → (f (g.reply p.req)).event = (f (g.reply p.req)).triggers)
    (hsame : (f (g.reply p.req)).freed = (g.reply p.req).freed ∧
      (f (g.reply p.req)).returned = (g.reply p.req).returned) :
    Kept (.worker n) g (g.setReply p.req f) (.runs stage' p) := by
  obtain ⟨hspawned, -⟩ := hc.run
  obtain ⟨hlt, -, -⟩ := hok.workers.serves n p hspawned
  obtain ⟨hfreed, hreturned⟩ := hsame
  refine .setReply hok ?_ ⟨hc.send, hspawned, ?_⟩ (.inl hlt) ?_ ?_
  · refine hok.replies.setReply honce hvalue (fun h => ?_) (fun h => by omega) fun v hv => ?_
    · have := hok.replies.freed p.req (hfreed.symm.trans h)
      omega
    · have := (hok.replies.returned p.req v (hreturned.symm.trans hv)).1
      omega
  · rw [reply_setReply_self]
    exact hown
  · intro stage r _ _ hknows
    cases stage with
    | await => exact hevent (hknows.trans htriggers)
    | read => cases htriggers.symm.trans hknows
    | free v => cases htriggers.symm.trans hknows.1
  · intro m q stage hne hq hreq
    exact absurd (by rw [hok.workers.unique m n q p hq hspawned hreq]) hne

/-- The worker does not stray. -/
theorem strays_eq_false (htriggers : (g.reply k).triggers = 0) :
    (g.stray || g.strays k k) = g.stray := by
  have hfreed : (g.reply k).freed = false := by
    by_contra h
    have := hok.replies.freed k (by simpa using h)
    omega
  simp [Globals.strays, hfreed]

theorem runStep_kept {n : ℕ} {stage : RunStage} (hc : PcOk (.worker n) g (.runs stage p))
    (h : runStep n stage p g = some (g', pc')) :
    Kept (.worker n) g g' pc' := by
  obtain ⟨hspawned, hknows⟩ := hc.run
  obtain ⟨-, -, r, hr, -, hdone, hreturn, -⟩ := hok.workers.serves n p hspawned
  cases stage with
  | exec => cases h
  | store v =>
    obtain ⟨htriggers, hfinished⟩ := hknows
    dsimp only [runStep] at h
    split at h
    · rename_i hnone
      cases h
      exact ⟨hok, ⟨hc.send, hspawned, htriggers, fun h => absurd hnone h⟩, fun _ _ _ h => h⟩
    · rename_i k hsome
      obtain rfl := Request.pointer_eq (hreturn.symm.trans hsome)
      rw [strays_eq_false hok htriggers] at h
      cases h
      show Kept _ g (g.setReply p.req fun r => { r with value := v }) _
      exact .runs hok hc htriggers ⟨htriggers, fun _ => hfinished⟩ (hok.replies.once _)
        (fun _ => hfinished) (fun hzero => hzero.trans htriggers.symm) ⟨rfl, rfl⟩
  | trigger =>
    obtain ⟨htriggers, hfinished⟩ := hknows
    dsimp only [runStep] at h
    split at h
    · rename_i hnone
      cases h
      exact ⟨hok, ⟨hc.send, hspawned, fun h => absurd hnone h⟩, fun _ _ _ h => h⟩
    · rename_i k hsome
      have hvalue := hfinished (by rw [hreturn, ← hdone, hsome]; simp)
      obtain rfl := Request.pointer_eq (hdone.symm.trans hsome)
      rw [strays_eq_false hok htriggers] at h
      cases h
      show Kept _ g
        (g.setReply p.req fun r => { r with event := r.event + 1, triggers := r.triggers + 1 }) _
      refine .runs hok hc htriggers (fun _ => ?_) ?_ (fun _ => hvalue) (fun hzero => ?_) ⟨rfl, rfl⟩
      · rw [htriggers]
      · exact Nat.le_of_eq (congrArg (· + 1) htriggers)
      · rw [htriggers, hzero]
  | finish =>
    dsimp only [runStep] at h
    split_ifs at h with hlock
    cases h
    exact .lock hok (by simpa using hlock) rfl (by simp) ⟨p, hspawned, hknows⟩

theorem threadStep_kept {a : Stmt} (hc : PcOk t g pc)
    (hsend : ∀ sync data type, a = .send sync data type → sync = true → type ≠ .killRunner)
    (hdie : a = .die → pc.Killable t) (h : threadStep t a g pc = some (g', pc')) :
    Kept t g g' pc' := by
  unfold threadStep at h
  split at h
  · rename_i sync data type i
    split_ifs at h with hlock
    cases h
    exact .lock hok (by simpa using hlock) rfl (hsend sync data type rfl) trivial
  · rename_i n
    obtain ⟨p, hp, heq⟩ := Option.map_eq_some_iff.1 h
    cases heq
    exact ⟨hok, ⟨hc.send, hp, hc.run p hp⟩, fun _ _ _ h => h⟩
  · rename_i stage k req
    exact fillStep_kept hok hc (Option.some.inj h)
  · exact waitStep_kept hok hc h
  · rename_i v p
    cases t with
    | thread i => exact hc.run.elim
    | worker n =>
    obtain ⟨hspawned, htriggers, -⟩ := hc.run
    obtain ⟨-, htype, -⟩ := hok.workers.serves n p hspawned
    rw [if_neg htype] at h
    cases h
    refine .runs hok hc htriggers ⟨htriggers, rfl⟩ (hok.replies.once _) (fun h => ?_)
      (fun hzero => hzero.trans htriggers.symm) ⟨rfl, rfl⟩
    cases htriggers.symm.trans h
  · exact runStep_kept hok hc h
  · cases h
    refine ⟨hok, ⟨?_, ?_⟩, fun _ _ _ h => h⟩
    · have hkill := hdie rfl
      cases pc with
      | fills _ _ _ | runs _ _ => cases hkill
      | waits stage k req => exact hc.send.2.1
      | idle | dead => exact hc.send
    · have hkill := hdie rfl
      cases t with
      | thread i => trivial
      | worker n =>
        cases pc with
        | fills _ _ _ | runs _ _ | idle => cases hkill
        | waits stage k req => exact hc.run
        | dead => exact hc.run
  · cases h

end Urm

end DripOS
