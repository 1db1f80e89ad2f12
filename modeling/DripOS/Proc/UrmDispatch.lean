import DripOS.Proc.UrmRequests

/-!
# The dispatch of requests

`urm_thread` of `src/proc/urm.c`, and the interleavings of `Proc/UrmRequests.lean`.

`Urm.requests_served_once` : as long as `urm_thread` leaves `await_event` only after the sender has
stored everything, every request is dispatched once, and every sender that waits gets its own
result.  `Urm.done_event_lost` shows the other interleavings.
-/

namespace DripOS

open List Option

namespace Urm

variable {t : Tid} {g g' : Globals} {pc : Pc} {k : ℕ} {p : Params}

/-- What a step of `urm_thread` has to keep. -/
structure UrmKept (g g' : Globals) : Prop where
  ok : GlobalsOk g'
  pcs : ∀ t pc, PcOk t g pc → PcOk t g' pc

/-- A step of `urm_thread` that dispatches nothing. -/
theorem UrmKept.of_same (hok : GlobalsOk g) (hsending : g.sending = none)
    (hsame : g' = { g with
      urmLock := g'.urmLock
      urmRequestEvent := g'.urmRequestEvent
      urmData := g'.urmData
      urmDoneEvent := g'.urmDoneEvent
      urmReturn := g'.urmReturn
      urm := g'.urm })
    (hfree : g'.urmLock = false → g'.urm = .awaiting ∧ g'.urmRequestEvent = 0 ∧
      g'.urmDoneEvent = none ∧ g'.urmReturn = none ∧ g'.handled = g'.requests.map Request.content)
    (hfilled : g'.urmLock = true → ∃ rs r, g'.requests = rs ++ [r] ∧ Dispatch g' rs r g'.urm) :
    UrmKept g g' := by
  rw [hsame] at hfree hfilled ⊢
  refine ⟨⟨⟨fun h => ⟨hsending, hfree h⟩, fun t h => ?_, fun h _ => hfilled h⟩, ?_, ?_⟩,
    fun t pc hc => ?_⟩
  · cases hsending.symm.trans h
  · exact ⟨hok.workers.serves, hok.workers.unique, hok.workers.served, hok.workers.sync⟩
  · exact ⟨hok.replies.once, hok.replies.value, hok.replies.freed, hok.replies.fresh,
      hok.replies.returned, hok.replies.stray⟩
  · exact ⟨hc.send.frame (by simp [hsending]) (by simp [hsending]) (fun _ _ h => h)
      fun _ _ _ _ _ h => h, hc.run.frame rfl fun _ _ _ _ _ h => h⟩

/-! ### A dispatch -/

/-- The workers for a request `r` behind the requests `rs`: none for `URM_KILL_RUNNER`, else one. -/
def NewWorkers (rs : List Request) (r : Request) (l : List Params) : Prop :=
  l = [] ∧ r.type = .killRunner ∨
    ∃ p, l = [p] ∧ Serves p r ∧ p.req = rs.length ∧ r.type ≠ .killRunner

section Dispatch

variable {rs : List Request} {r : Request} {l : List Params}

theorem NewWorkers.of_mem (h : NewWorkers rs r l) (hp : p ∈ l) :
    l = [p] ∧ Serves p r ∧ p.req = rs.length ∧ r.type ≠ .killRunner := by
  rcases h with ⟨rfl, -⟩ | ⟨q, rfl, hq⟩
  · cases hp
  · obtain rfl := mem_singleton.1 hp
    exact ⟨rfl, hq⟩

/-- Only the new worker serves the last request. -/
theorem WorkersOk.dispatch (hok : WorkersOk g) (hrs : g.requests = rs ++ [r])
    (hhandled : g.handled = rs.map Request.content) (hl : NewWorkers rs r l) :
    WorkersOk { g with
      urm := .resetDone
      spawned := g.spawned ++ l
      handled := g.handled ++ [r.content] } := by
  have hlen : g.handled.length = rs.length := by rw [hhandled, length_map]
  have hlast : g.requests[rs.length]? = some r := by rw [hrs, List.getElem?_concat_length]
  have hold : ∀ (n : ℕ) p, g.spawned[n]? = some p → p.req < rs.length := fun n p hp =>
    hlen ▸ (hok.serves n p hp).1
  refine ⟨?_, ?_, ?_, hok.sync⟩
  · intro n p hp
    simp only [length_append, length_singleton]
    rcases getElem?_append_cases hp with hp | ⟨hp, -⟩
    · obtain ⟨hlt, hserves⟩ := hok.serves n p hp
      exact ⟨by omega, hserves⟩
    · obtain ⟨-, hserves, hreq, htype⟩ := hl.of_mem hp
      exact ⟨by omega, hserves.2.2.2 ▸ htype, r, by rw [hreq]; exact hlast, hserves⟩
  · intro n m p q hp hq hpq
    rcases getElem?_append_cases hp with hp' | ⟨hp', hn⟩ <;>
      rcases getElem?_append_cases hq with hq' | ⟨hq', hm⟩
    · exact hok.unique n m p q hp' hq' hpq
    · have := hold n p hp'
      have := (hl.of_mem hq').2.2.1
      omega
    · have := hold m q hq'
      have := (hl.of_mem hp').2.2.1
      omega
    · obtain ⟨rfl, -⟩ := hl.of_mem hp'
      have hn' := (List.getElem?_eq_some_iff.1 hp).1
      have hm' := (List.getElem?_eq_some_iff.1 hq).1
      simp only [length_append, length_singleton] at hn' hm'
      omega
  · intro k r' hk hr' htype
    simp only [length_append, length_singleton] at hk
    rcases Nat.lt_or_ge k g.handled.length with hk' | hk'
    · obtain ⟨n, p, hp, hreq⟩ := hok.served k r' hk' hr' htype
      exact ⟨n, p, getElem?_append_of_some hp l, hreq⟩
    · obtain rfl : k = rs.length := by omega
      cases hr'.symm.trans hlast
      rcases hl with ⟨-, hkill⟩ | ⟨p, rfl, -, hreq, -⟩
      · exact absurd hkill htype
      · exact ⟨g.spawned.length, p, List.getElem?_concat_length, hreq⟩

/-- The workers go on, and the event of the new one has not been triggered. -/
theorem RunOk.dispatch (hok : GlobalsOk g) (hhandled : g.handled = rs.map Request.content)
    (hl : NewWorkers rs r l) (hrun : RunOk g t pc) :
    RunOk { g with
      urm := .resetDone
      spawned := g.spawned ++ l
      handled := g.handled ++ [r.content] } t pc := by
  have hlen : g.handled.length = rs.length := by rw [hhandled, length_map]
  cases t with
  | thread i => cases pc <;> exact hrun
  | worker n =>
    cases pc with
    | idle =>
      intro p hp
      rcases getElem?_append_cases hp with hp | ⟨hp, -⟩
      · exact hrun p hp
      · have hreq := (hl.of_mem hp).2.2.1
        exact hok.replies.fresh p.req (by omega)
    | runs stage p => exact ⟨getElem?_append_of_some hrun.1 l, hrun.2⟩
    | fills _ _ _ | waits _ _ _ | dead =>
      obtain ⟨p, hp, hk⟩ := hrun
      exact ⟨p, getElem?_append_of_some hp l, hk⟩

/-- `urm_thread` dispatches the last request: it creates a worker for it, if it is no
`URM_KILL_RUNNER`. -/
theorem UrmKept.dispatch (hok : GlobalsOk g) (hsending : g.sending = none)
    (hlock : g.urmLock = true) (hrs : g.requests = rs ++ [r])
    (hhandled : g.handled = rs.map Request.content) (hevent : g.urmRequestEvent = 0)
    (hl : NewWorkers rs r l) :
    UrmKept g { g with
      urm := .resetDone
      spawned := g.spawned ++ l
      handled := g.handled ++ [r.content] } := by
  refine ⟨⟨⟨?_, fun t h => ?_, fun _ _ => ⟨rs, r, hrs, hevent, ?_⟩⟩,
    hok.workers.dispatch hrs hhandled hl, ?_⟩, fun t pc hc => ⟨?_, hc.run.dispatch hok hhandled hl⟩⟩
  · intro h
    cases hlock.symm.trans h
  · cases hsending.symm.trans h
  · simp only [hrs, hhandled, map_append, map_singleton]
  · refine ⟨hok.replies.once, hok.replies.value, hok.replies.freed, fun k hk => ?_,
      hok.replies.returned, hok.replies.stray⟩
    simp only [length_append] at hk
    exact hok.replies.fresh k (by omega)
  · exact hc.send.frame (by simp [hsending]) (by simp [hsending]) (fun _ _ h => h)
      fun _ _ _ _ _ h => h

end Dispatch

theorem urmStep_kept (hok : GlobalsOk g) (hs : g.urm = .awaiting → g.sending = none)
    (h : urmStep g = some g') : UrmKept g g' := by
  have hsending : g.sending = none := by
    by_contra hne
    obtain ⟨t, ht⟩ := ne_none_iff_exists'.1 hne
    exact hne (hs (hok.slot.filling t ht).2)
  have hlock : g.urmLock = true := by
    by_contra hne
    obtain ⟨-, hurm, hevent, -⟩ := hok.slot.free (by simpa using hne)
    simp [urmStep, hurm, hevent] at h
  obtain ⟨rs, r, hrs, hd⟩ := hok.slot.filled hlock hsending
  -- a step that only reads a variable, or clears one
  have hnext {g' : Globals}
      (hsame : g' = { g with
        urmRequestEvent := g'.urmRequestEvent
        urmData := g'.urmData
        urmDoneEvent := g'.urmDoneEvent
        urmReturn := g'.urmReturn
        urm := g'.urm })
      (hdispatch : Dispatch g' rs r g'.urm) : UrmKept g g' := by
    have hlock' : g'.urmLock = true := by rw [hsame]; exact hlock
    refine .of_same hok hsending (by rw [hsame]) (fun h => ?_) fun _ => ⟨rs, r, ?_, hdispatch⟩
    · cases hlock'.symm.trans h
    · rw [hsame, hrs]
  unfold urmStep at h
  generalize g.urm = pc at h hd
  cases pc with
  | awaiting =>
    obtain ⟨hevent, hf⟩ := hd
    dsimp only at h
    split_ifs at h
    cases h
    exact hnext rfl ⟨by rw [hevent], hf.data, hf.type, hf.doneEvent, hf.returnVal, hf.handled⟩
  | switch =>
    have hf : Filled g rs r := hd
    dsimp only at h
    split_ifs at h with htype
    · obtain ⟨data, hdata, rfl⟩ := map_eq_some_iff.1 h
      obtain rfl := Option.some.inj (hf.data.symm.trans hdata)
      rw [hf.type] at htype
      have := UrmKept.dispatch hok hsending hlock hrs hf.handled hf.event (.inl ⟨rfl, htype⟩)
      simpa only [append_nil, Request.content, htype] using this
    · cases h
      exact hnext rfl ⟨hf.setUrm _, hf.type ▸ htype⟩
  | copy =>
    obtain ⟨hf, htype⟩ := hd
    obtain ⟨data, hdata, rfl⟩ := map_eq_some_iff.1 h
    obtain rfl := Option.some.inj (hf.data.symm.trans hdata)
    exact hnext rfl ⟨hf.setUrm _, htype, rfl⟩
  | doneEvent data =>
    obtain ⟨hf, htype, hdata⟩ := hd
    cases h
    exact hnext rfl ⟨hf.setUrm _, htype, hdata, hf.doneEvent⟩
  | returnVal data doneEvent =>
    obtain ⟨hf, htype, hdata, hdone⟩ := hd
    cases h
    exact hnext rfl ⟨hf.setUrm _, htype, hdata, hdone, hf.returnVal⟩
  | type data doneEvent returnVal =>
    obtain ⟨hf, htype, hdata, hdone, hreturn⟩ := hd
    cases h
    have hreq : g.requests.length - 1 = rs.length := by simp [hrs]
    rw [hreq]
    exact hnext rfl ⟨hf.setUrm _, htype, ⟨hdata, hdone, hreturn, hf.type⟩, rfl⟩
  | create p =>
    obtain ⟨hf, htype, hserves, hreq⟩ := hd
    cases h
    have := UrmKept.dispatch hok hsending hlock hrs hf.handled hf.event
      (.inr ⟨p, rfl, hserves, hreq, htype⟩)
    rwa [Request.content, ← hserves.1, ← hserves.2.2.2] at this
  | resetDone =>
    cases h
    exact hnext rfl ⟨hd.1, hd.2, rfl⟩
  | resetData =>
    cases h
    exact hnext rfl hd
  | resetReturn =>
    cases h
    exact hnext rfl ⟨hd.1, hd.2.1, hd.2.2, rfl⟩
  | unlock =>
    cases h
    exact .of_same hok hsending rfl (fun _ => ⟨rfl, hd.1, hd.2.2.1, hd.2.2.2, hd.2.1⟩) (by simp)

/-! ### Every interleaving -/

theorem globalsOk_init : GlobalsOk init.shared := by
  refine ⟨⟨?_, ?_, ?_⟩, ⟨?_, ?_, ?_, ?_⟩, ⟨?_, ?_, ?_, ?_, ?_, rfl⟩⟩ <;> simp [init]

theorem pcOk_init (t : Tid) : PcOk t init.shared (init.loc t) := by
  cases t <;> exact ⟨by simp [init, SendOk], by simp [init, RunOk]⟩

theorem holds_of_run {ls : List (Act Tid Stmt UrmStmt)} {c : Conf Tid Globals Pc}
    (hrun : Run (system.Step FilledIn) init ls c) :
    System.Holds GlobalsOk (fun t g pc => PcOk t g pc) c := by
  refine System.invariant hrun ⟨globalsOk_init, pcOk_init⟩ ?_ ?_
  · intro c b g hc hP hstep
    have hkept := urmStep_kept hc.shared hP hstep
    exact ⟨hkept.ok, fun t => hkept.pcs t _ (hc.loc t)⟩
  · intro c t a g pc hc hP hstep
    have hkept := threadStep_kept hc.shared (hc.loc t)
      (fun sync data type ha => by subst ha; exact hP) (fun ha => by subst ha; exact hP) hstep
    exact ⟨hkept.ok, hkept.own, fun u hu => hkept.others u _ hu (hc.loc u)⟩

/-- Before the dispatch, `urm_thread` can go on. -/
theorem Dispatch.handled {rs : List Request} {r : Request} (h : Dispatch g rs r g.urm) :
    g.handled = g.requests.map Request.content ∨
      g.handled = rs.map Request.content ∧ (urmStep g).isSome := by
  unfold urmStep
  cases hurm : g.urm <;> rw [hurm] at h
  case awaiting => exact .inr ⟨h.2.handled, by simp [h.1]⟩
  case switch =>
    have hf : Filled g rs r := h
    refine .inr ⟨hf.handled, ?_⟩
    split_ifs <;> simp [hf.data]
  case copy => exact .inr ⟨h.1.handled, by simp [h.1.data]⟩
  case doneEvent | returnVal | type | create => exact .inr ⟨h.1.handled, rfl⟩
  case resetDone => exact .inl h.2
  case resetData | resetReturn | unlock => exact .inl h.2.1

/-- The thread that has `urm_lock` is filling in the last request. -/
theorem PcOk.filling (h : PcOk t g pc) (ht : g.sending = some t) :
    ∃ rs r, g.requests = rs ++ [r] ∧ g.handled = rs.map Request.content := by
  cases pc with
  | fills stage k req =>
    obtain ⟨-, -, ⟨rs, hrs, hhandled, -⟩, -⟩ := h.send
    exact ⟨rs, req, hrs, hhandled⟩
  | waits stage k req => exact absurd ht h.send.2.1
  | idle | runs _ _ | dead => exact absurd ht h.send

/-- The worker has not triggered the event of its request yet. -/
def Pc.BeforeTrigger (p : Params) : Pc → Prop
  | .idle => True
  | .runs stage q => q = p ∧ stage ≠ .finish
  | _ => False

/-- **Every request is dispatched once, and every sender that waits gets its own result**, in every
interleaving in which `urm_thread` leaves `await_event` only after the sender has stored everything,
nobody waits for a `URM_KILL_RUNNER`, and no thread is killed while it fills in or serves a request.
The requests are dispatched in their order, except the last one while the lock is held: then its
sender is filling it in, or `urm_thread` can go on with it.  The event of a sender that waits is
triggered at most once, when the result is stored; `send_urm_request` returns this result.  As long
as the event was not triggered, the request is not dispatched yet, or its worker has not come to the
trigger.  No worker uses an event or a place that is not its own, or that was freed. -/
theorem requests_served_once {ls : List (Act Tid Stmt UrmStmt)} {c : Conf Tid Globals Pc}
    (hrun : Run (system.Step FilledIn) init ls c) :
    c.shared.stray = false ∧
    (c.shared.handled = c.shared.requests.map Request.content ∨
      ∃ rs r, c.shared.requests = rs ++ [r] ∧ c.shared.handled = rs.map Request.content ∧
        (c.shared.sending ≠ none ∨ (urmStep c.shared).isSome)) ∧
    ∀ (k : ℕ) r, c.shared.requests[k]? = some r → r.sync = true →
      (c.shared.reply k).triggers ≤ 1 ∧
      ((c.shared.reply k).triggers = 1 →
        (c.shared.reply k).finished = some (c.shared.reply k).value) ∧
      (∀ v, (c.shared.reply k).returned = some v →
        (c.shared.reply k).triggers = 1 ∧ (c.shared.reply k).finished = some v) ∧
      (k < c.shared.handled.length → (c.shared.reply k).triggers = 0 →
        ∃ (n : ℕ) (p : _), c.shared.spawned[n]? = some p ∧ p.data = r.data ∧ p.type = r.type ∧
          p.doneEvent = some k ∧ p.returnVal = some k ∧ (c.loc (.worker n)).BeforeTrigger p) := by
  obtain ⟨hok, hpcs⟩ := holds_of_run hrun
  refine ⟨hok.replies.stray, ?_, fun k r hr hsync => ⟨hok.replies.once k, hok.replies.value k,
    hok.replies.returned k, fun hk htriggers => ?_⟩⟩
  · cases hlock : c.shared.urmLock with
    | false =>
      obtain ⟨-, -, -, -, -, hhandled⟩ := hok.slot.free hlock
      exact .inl hhandled
    | true =>
      cases hsending : c.shared.sending with
      | some t =>
        obtain ⟨rs, r, hrs, hhandled⟩ := (hpcs t).filling hsending
        exact .inr ⟨rs, r, hrs, hhandled, .inl (by simp)⟩
      | none =>
        obtain ⟨rs, r, hrs, hdispatch⟩ := hok.slot.filled hlock hsending
        exact hdispatch.handled.imp_right fun ⟨hhandled, hstep⟩ =>
          ⟨rs, r, hrs, hhandled, .inr hstep⟩
  · obtain ⟨n, p, hp, rfl⟩ := hok.workers.served k r hk hr (hok.workers.sync k r hr hsync)
    obtain ⟨-, -, r', hr', hdata, hdone, hreturn, htype⟩ := hok.workers.serves n p hp
    cases hr.symm.trans hr'
    have hpointer : r.pointer p.req = some p.req := if_pos hsync
    have hevent : p.doneEvent = some p.req := hdone.trans hpointer
    refine ⟨n, p, hp, hdata, htype, hevent, hreturn.trans hpointer, ?_⟩
    -- a worker that is past the trigger has triggered the event
    have hpast : ¬ RunStage.finish.Knows p (c.shared.reply p.req) := fun hknows => by
      cases htriggers.symm.trans (hknows (by simp [hevent]))
    have hrun := (hpcs (.worker n)).run
    cases hpc : c.loc (.worker n) with
    | idle => trivial
    | runs stage q =>
      rw [hpc] at hrun
      obtain ⟨hq, hknows⟩ := hrun
      cases hp.symm.trans hq
      refine ⟨rfl, ?_⟩
      rintro rfl
      exact hpast hknows
    | fills _ _ _ | waits _ _ _ | dead =>
      rw [hpc] at hrun
      obtain ⟨q, hq, hknows⟩ := hrun
      cases hp.symm.trans hq
      exact absurd hknows hpast

/-- A sender fills in its request, and `urm_thread` dispatches it. -/
def dispatched (t : Tid) : List (Act Tid Stmt UrmStmt) :=
  List.replicate 6 (.proc t .next) ++ List.replicate 11 (.shared .next)

/-- A worker serves a request, while another thread sends one. -/
def twoSenders : List (Act Tid Stmt UrmStmt) :=
  [.proc (.thread 0) (.send true 7 .killThread)] ++ dispatched (.thread 0) ++
    [.proc (.thread 1) (.send true 8 .execve), .proc (.worker 0) .next, .proc (.worker 0) (.exec 5),
      .proc (.worker 0) .next, .proc (.worker 0) .next] ++ dispatched (.thread 1) ++
    List.replicate 3 (.proc (.thread 0) .next)

/-- The first sender has its result, and the second one has a worker. -/
theorem requests_served_once_twoSenders : ∃ c, Run (system.Step FilledIn) init twoSenders c ∧
    c.shared.handled = [(7, .killThread), (8, .execve)] ∧ (c.shared.reply 0).returned = some 5 ∧
    (c.shared.reply 0).triggers = 1 ∧ (c.shared.reply 0).finished = some 5 ∧
    ∃ (n : ℕ) (p : _), c.shared.spawned[n]? = some p ∧ p.data = 8 ∧ p.type = .execve ∧
      p.doneEvent = some 1 ∧ p.returnVal = some 1 ∧ (c.loc (.worker n)).BeforeTrigger p := by
  obtain ⟨c, hrun, hhandled, hreturned, hrequests, htriggers⟩ : ∃ c,
      Run (system.Step FilledIn) init twoSenders c ∧
      c.shared.handled = [(7, .killThread), (8, .execve)] ∧ (c.shared.reply 0).returned = some 5 ∧
      c.shared.requests = [⟨.thread 0, 7, .killThread, true⟩, ⟨.thread 1, 8, .execve, true⟩] ∧
      (c.shared.reply 1).triggers = 0 := System.exists_run (by decide +kernel)
  obtain ⟨-, -, hreplies⟩ := requests_served_once hrun
  obtain ⟨-, -, hresult, -⟩ := hreplies 0 _ (by rw [hrequests]; rfl) rfl
  obtain ⟨-, -, -, hworker⟩ := hreplies 1 _ (by rw [hrequests]; rfl) rfl
  exact ⟨c, hrun, hhandled, hreturned, (hresult 5 hreturned).1, (hresult 5 hreturned).2,
    hworker (by simp [hhandled]) htriggers⟩

/-- `urm_thread` takes a request as soon as it is triggered. -/
def takenEarly : List (Act Tid Stmt UrmStmt) :=
  [.proc (.thread 0) (.send true 7 .killThread)] ++ List.replicate 3 (.proc (.thread 0) .next) ++
    List.replicate 11 (.shared .next) ++
    [.proc (.worker 0) .next, .proc (.worker 0) (.exec 5)] ++
    List.replicate 6 (.proc (.worker 0) .next) ++ List.replicate 6 (.shared .next) ++
    List.replicate 3 (.proc (.thread 0) .next)

/-- **A sender that waits for ever, and an event that is triggered for another request.**
`urm_thread` takes the request before its sender has stored the event.  The sender waits for an
event that nobody has, and the worker of the next request, whose sender does not wait, triggers it.
-/
theorem done_event_lost :
    (∃ c, Run (system.Step fun _ _ => True) init takenEarly c ∧
      (c.shared.reply 0).finished = some 5 ∧ (c.shared.reply 0).triggers = 0 ∧
      c.loc (.thread 0) = .waits .await 0 ⟨.thread 0, 7, .killThread, true⟩ ∧
      c.loc (.worker 0) = .dead ∧ c.shared.spawned.length = 1 ∧ (urmStep c.shared).isNone ∧
      (system.exec c (.proc (.thread 0) .next)).isNone) ∧
    ∃ c, Run (system.Step fun _ _ => True) init
      (takenEarly ++ [.proc (.thread 1) (.send false 8 .killThread)] ++
        List.replicate 3 (.proc (.thread 1) .next) ++ List.replicate 7 (.shared .next) ++
        [.proc (.worker 1) .next, .proc (.worker 1) (.exec 6)] ++
        List.replicate 2 (.proc (.worker 1) .next)) c ∧
      c.shared.spawned[1]? = some ⟨8, some 0, some 0, .killThread, 2⟩ ∧
      (c.shared.reply 0).triggers = 1 ∧ (c.shared.reply 0).value = 6 ∧ c.shared.stray = true := by
  exact ⟨System.exists_run (by decide +kernel), System.exists_run (by decide +kernel)⟩

end Urm

end DripOS
