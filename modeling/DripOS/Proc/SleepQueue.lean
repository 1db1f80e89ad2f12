import DripOS.Proc.Scheduler
import DripOS.Lib.Run

/-!
# The queue of sleeping threads

`src/proc/sleep_queue.c`.  The node of a sleeping thread stores the ticks that it wakes up after its
predecessor, so that a tick only counts down the first node.  A tick that finds `sched_lock` taken
is counted in `lagged_ticks`, and made up for by the next one.
-/

namespace DripOS

open List Slots

/-- What `advance_time` does to a thread whose time is over. -/
def Thread.wakeUp (thread : Thread) : Thread := { thread with state := .ready, running := false }

/-- The number in a node, and whose node it is. -/
def SleepNode.key (n : SleepNode) : ℕ × ℕ := (n.tid, n.owner)

namespace Sched

/-- The loop of `insert_to_queue` and the insertion: `nodes` come after `cur`, and `total` is the
sum of the `time_left` up to `cur`.  The flag tells whether a subtraction went below zero. -/
def insertAfter (ticks : UInt64) (tid owner : ℕ) (total : UInt64) :
    List SleepNode → List SleepNode × Bool
  | [] => ([⟨ticks - total, tid, owner⟩], ticks < total)
  | next :: nodes =>
    if total ≤ ticks ∧ total + next.timeLeft ≥ ticks then
      let beforeRelative := ticks - total
      (⟨beforeRelative, tid, owner⟩ ::
        { next with timeLeft := next.timeLeft - beforeRelative } :: nodes,
        next.timeLeft < beforeRelative)
    else
      let (nodes, wrapped) := insertAfter ticks tid owner (total + next.timeLeft) nodes
      (next :: nodes, wrapped)

/-- `insert_to_queue`. -/
def insertToQueue (s : Sched) (ticks : UInt64) (tid owner : ℕ) : Except SchedHalt Sched :=
  if s.queue.any (·.owner = owner) then .error .relinked
  else
    let (queue, wrapped) := insertAfter ticks tid owner 0 s.queue
    .ok { s with queue := queue, wrapped := s.wrapped || wrapped }

/-- `sleep_ms` of the thread `tid` on a processor, which goes on with `next`. -/
def sleepMs (s : Sched) (cpu tid : ℕ) (ms : UInt64) (next : Option ℕ) : Except SchedHalt Sched := do
  let thread ← s.getThread tid
  if thread.state = .running then
    let s := s.setThread tid (some { thread with state := .sleep })
    let s ← s.insertToQueue ms tid thread.ident
    s.schedule cpu (some tid) next
  else .error .assertion

/-- The end of the sleep of a thread: it may have been killed. -/
def wake (s : Sched) (node : SleepNode) : Except SchedHalt Sched :=
  match get s.threads node.tid with
  | none => .ok s
  | some thread =>
    if thread.state = .sleep then
      .ok { s.setThread node.tid (some thread.wakeUp) with
        wakes := s.wakes ++ [(node.owner, thread.ident)] }
    else .error .assertion

/-- The loop of `advance_time` over the nodes whose time is over. -/
def wakeAll (s : Sched) : List SleepNode → Except SchedHalt Sched
  | [] => .ok { s with queue := [] }
  | cur :: next =>
    if cur.timeLeft = 0 then do
      let s ← s.wake cur
      s.wakeAll next
    else .ok { s with queue := cur :: next }

/-- One round of `advance_time`. -/
def advanceRound (s : Sched) : Except SchedHalt Sched :=
  match s.queue with
  | [] => .ok s
  | cur :: next =>
    { s with wrapped := s.wrapped || cur.timeLeft = 0 }.wakeAll
      ({ cur with timeLeft := cur.timeLeft - 1 } :: next)

/-- `advance_time`, which may find `sched_lock` taken. -/
def advanceTime (s : Sched) (locked : Bool) : Except SchedHalt Sched :=
  let s := { s with clock := s.clock + 1 }
  if locked then .ok { s with laggedTicks := s.laggedTicks + 1 }
  else do
    let s ← forRange (s.laggedTicks + 1) (fun _ s => s.advanceRound) s
    .ok { s with laggedTicks := 0 }

/-! ### Waking up -/

/-- The queue names sleeping threads, and every thread by its own node. -/
structure QueueOk (s : Sched) (nodes : List SleepNode) : Prop where
  nodup : (nodes.map (·.tid)).Nodup
  sleeping : ∀ n ∈ nodes, ∀ thread, get s.threads n.tid = some thread →
    thread.ident = n.owner ∧ thread.state = .sleep

/-- The threads `tids` were woken up, and only the queue has changed otherwise. -/
structure Woken (s s' : Sched) (tids : List ℕ) : Prop where
  get : ∀ tid, Slots.get s'.threads tid =
    if tid ∈ tids then (Slots.get s.threads tid).map Thread.wakeUp else Slots.get s.threads tid
  wakes : ∀ p ∈ s'.wakes, p ∈ s.wakes ∨ p.1 = p.2
  same : s' = { s with threads := s'.threads, wakes := s'.wakes, queue := s'.queue }

theorem wake_spec {s : Sched} {n : SleepNode}
    (h : ∀ thread, get s.threads n.tid = some thread →
      thread.ident = n.owner ∧ thread.state = .sleep) :
    ∃ s', s.wake n = .ok s' ∧ Woken s s' [n.tid] := by
  unfold wake
  cases hget : get s.threads n.tid with
  | none =>
    refine ⟨s, rfl, fun tid => ?_, fun p hp => Or.inl hp, rfl⟩
    split_ifs with htid
    · rw [mem_singleton.1 htid, hget]
      rfl
    · rfl
  | some thread =>
    obtain ⟨hident, hstate⟩ := h thread hget
    dsimp only
    rw [if_pos hstate]
    refine ⟨_, rfl, fun tid => ?_, fun p hp => ?_, rfl⟩
    · refine (get_setThread hget _ tid).trans ?_
      simp only [mem_singleton]
      split_ifs with htid
      · rw [htid, hget]
        rfl
      · rfl
    · rcases mem_append.1 hp with hp | hp
      · exact Or.inl hp
      · rw [mem_singleton.1 hp]
        exact Or.inr hident.symm

/-- The loop wakes up the threads in front whose time is over. -/
theorem wakeAll_spec {s : Sched} {nodes : List SleepNode} (h : QueueOk s nodes) :
    ∃ s', s.wakeAll nodes = .ok s' ∧
      Woken s s' ((nodes.takeWhile (·.timeLeft = 0)).map (·.tid)) ∧
      s'.queue = nodes.dropWhile (·.timeLeft = 0) := by
  induction nodes generalizing s with
  | nil => exact ⟨_, rfl, ⟨fun tid => rfl, fun p hp => Or.inl hp, rfl⟩, rfl⟩
  | cons n nodes ih =>
    unfold wakeAll
    by_cases hn : n.timeLeft = 0
    · obtain ⟨s1, hwake, hwoken⟩ := wake_spec (h.sleeping n mem_cons_self)
      have hnodup := nodup_cons.1 h.nodup
      -- the other nodes name other threads
      have hrest : QueueOk s1 nodes := by
        refine ⟨hnodup.2, fun m hm thread hthread => ?_⟩
        have hne : m.tid ≠ n.tid := fun heq =>
          hnodup.1 (mem_map.2 ⟨m, hm, heq⟩)
        rw [hwoken.get, if_neg (by simpa using hne)] at hthread
        exact h.sleeping m (mem_cons_of_mem n hm) thread hthread
      obtain ⟨s2, hwakeAll, hwoken2, hqueue⟩ := ih hrest
      rw [if_pos hn, hwake, ok_bind, takeWhile_cons_of_pos (by simpa using hn),
        dropWhile_cons_of_pos (by simpa using hn)]
      refine ⟨s2, hwakeAll, ⟨fun tid => ?_, fun p hp => ?_, ?_⟩, hqueue⟩
      · rw [hwoken2.get, hwoken.get]
        by_cases htid : tid = n.tid
        · subst htid
          have hnot : n.tid ∉ (nodes.takeWhile (·.timeLeft = 0)).map (·.tid) := fun hmem =>
            hnodup.1 (((takeWhile_sublist _).map _).subset hmem)
          rw [if_neg hnot, if_pos (mem_singleton_self _), map_cons, if_pos mem_cons_self]
        · simp [htid]
      · rcases hwoken2.wakes p hp with hp | hp
        · exact hwoken.wakes p hp
        · exact Or.inr hp
      · rw [hwoken2.same, hwoken.same]
    · rw [if_neg hn, takeWhile_cons_of_neg (by simpa using hn),
        dropWhile_cons_of_neg (by simpa using hn)]
      exact ⟨_, rfl, ⟨fun tid => rfl, fun p hp => Or.inl hp, rfl⟩, rfl⟩

/-! ### Going to sleep -/

theorem keys_insertAfter (ticks : UInt64) (tid owner : ℕ) (total : UInt64)
    (nodes : List SleepNode) :
    ((insertAfter ticks tid owner total nodes).1.map SleepNode.key).Perm
      ((tid, owner) :: nodes.map SleepNode.key) := by
  induction nodes generalizing total with
  | nil => exact List.Perm.refl _
  | cons n nodes ih =>
    unfold insertAfter
    split_ifs
    · exact List.Perm.refl _
    · exact ((ih (total + n.timeLeft)).cons n.key).trans (List.Perm.swap _ _ _)

/-- After `sleep_ms` the thread has left the processor. -/
theorem sleepMs_ok {s s' : Sched} {cpu tid : ℕ} {ms : UInt64} {next : Option ℕ}
    (h : s.sleepMs cpu tid ms next = .ok s') :
    ∃ thread, get s.threads tid = some thread ∧ thread.state = .running ∧
      next ≠ some tid ∧
      (∀ i, Slots.get s'.threads i = (Slots.get s.threads i).map fun th =>
        if i = tid then { th with state := .sleep, cpu := -1, running := false }
        else if next = some i then th.enter cpu else th) ∧
      (∀ i th, next = some i → get s.threads i = some th → th.pickable) ∧
      s' = { s with
        threads := s'.threads
        queue := (insertAfter ms tid thread.ident 0 s.queue).1
        wrapped := s.wrapped || (insertAfter ms tid thread.ident 0 s.queue).2 } := by
  obtain ⟨thread, hthread, h⟩ := bind_eq_ok.1 h
  have hget := getThread_eq_ok.1 hthread
  split_ifs at h with hrunning
  obtain ⟨s1, hinsert, hsched⟩ := bind_eq_ok.1 h
  unfold insertToQueue at hinsert
  split_ifs at hinsert
  cases hinsert
  obtain ⟨hget', hsame, hpick⟩ := schedule_ok hsched
  have hget1 := get_setThread_map hget fun th => { th with state := .sleep }
  have hnext : next ≠ some tid := fun hnext => by
    have := hpick tid { thread with state := .sleep } hnext ((hget1 tid).trans (by simp [hget]))
    simp [Thread.leave, Thread.pickable] at this
  refine ⟨thread, hget, hrunning, hnext, fun i => ?_, fun i th hi hth => ?_, hsame⟩
  · refine (hget' i).trans ?_
    refine (congrArg _ (hget1 i)).trans ?_
    rw [Option.map_map]
    congr 1
    funext th
    by_cases hi : i = tid
    · subst hi
      simp [hnext, Thread.leave]
    · have hi' : tid ≠ i := fun heq => hi heq.symm
      simp [hi, hi']
  · have hne : i ≠ tid := fun heq => hnext (heq ▸ hi)
    have := hpick i th hi ((hget1 i).trans (by simp [hth, hne]))
    rwa [if_neg (by simpa using hne.symm)] at this

/-! ### The invariant of the queue -/

/-- The nodes of the queue belong to the threads that they name, if these are still there. -/
structure SleepOk (s : Sched) : Prop where
  queue : QueueOk s s.queue
  /-- Threads are told apart by their identity. -/
  ident : ∀ i j th th', Slots.get s.threads i = some th → Slots.get s.threads j = some th' →
    th.ident = th'.ident → i = j
  fresh : ∀ i th, Slots.get s.threads i = some th → th.ident < s.nextIdent
  owner : ∀ n ∈ s.queue, n.owner < s.nextIdent ∧
    ∀ i th, Slots.get s.threads i = some th → th.ident = n.owner → i = n.tid
  /-- A thread that sleeps has left its processor. -/
  cpu : ∀ i th, Slots.get s.threads i = some th → th.state = .sleep → th.cpu = -1
  wakes : ∀ p ∈ s.wakes, p.1 = p.2

section Invariant

variable {s s' : Sched} {nodes nodes' : List SleepNode} {cpu tid : ℕ} {next : Option ℕ}
  {ms : UInt64}

theorem nodup_tid_of_keys (hkeys : (nodes'.map SleepNode.key).Sublist (nodes.map SleepNode.key))
    (h : (nodes.map (·.tid)).Nodup) : (nodes'.map (·.tid)).Nodup := by
  have hfst : ∀ l : List SleepNode,
      l.map (·.tid) = (l.map SleepNode.key).map Prod.fst := fun l => by
    rw [map_map]
    rfl
  rw [hfst] at h ⊢
  exact (hkeys.map _).nodup h

theorem exists_of_keys {n : SleepNode}
    (hkeys : (nodes'.map SleepNode.key).Subset (nodes.map SleepNode.key)) (hn : n ∈ nodes') :
    ∃ m ∈ nodes, m.tid = n.tid ∧ m.owner = n.owner := by
  obtain ⟨m, hm, hkey⟩ := mem_map.1 (hkeys (mem_map_of_mem hn))
  exact ⟨m, hm, congrArg Prod.fst hkey, congrArg Prod.snd hkey⟩

/-- A step that adds neither threads nor nodes, and leaves the threads with nodes asleep. -/
theorem SleepOk.mono (h : SleepOk s)
    (hkeys : (s'.queue.map SleepNode.key).Sublist (s.queue.map SleepNode.key))
    (hget : ∀ i th', Slots.get s'.threads i = some th' → ∃ th, Slots.get s.threads i = some th ∧
      th'.ident = th.ident ∧ (th'.state = .sleep → th'.cpu = -1) ∧
      (th.state = .sleep → (∃ n ∈ s'.queue, n.tid = i) → th'.state = .sleep))
    (hnext : s'.nextIdent = s.nextIdent) (hwakes : ∀ p ∈ s'.wakes, p.1 = p.2) : SleepOk s' := by
  refine ⟨⟨nodup_tid_of_keys hkeys h.queue.nodup, fun n hn th' hth' => ?_⟩,
    fun i j th' th1' hi hj heq => ?_, fun i th' hi => ?_, fun n hn => ?_,
    fun i th' hi hsleep => ?_, hwakes⟩
  · obtain ⟨m, hm, htid, howner⟩ := exists_of_keys hkeys.subset hn
    obtain ⟨th, hth, hident, -, hstate⟩ := hget n.tid th' hth'
    obtain ⟨hident0, hsleep⟩ := h.queue.sleeping m hm th (htid ▸ hth)
    exact ⟨hident.trans (hident0.trans howner), hstate hsleep ⟨n, hn, rfl⟩⟩
  · obtain ⟨th, hth, hident, -⟩ := hget i th' hi
    obtain ⟨th1, hth1, hident1, -⟩ := hget j th1' hj
    exact h.ident i j th th1 hth hth1 (hident.symm.trans (heq.trans hident1))
  · obtain ⟨th, hth, hident, -⟩ := hget i th' hi
    rw [hident, hnext]
    exact h.fresh i th hth
  · obtain ⟨m, hm, htid, howner⟩ := exists_of_keys hkeys.subset hn
    obtain ⟨hlt, hunique⟩ := h.owner m hm
    refine ⟨by rw [hnext, ← howner]; exact hlt, fun i th' hi heq => ?_⟩
    obtain ⟨th, hth, hident, -⟩ := hget i th' hi
    rw [← htid]
    exact hunique i th hth (hident.symm.trans (heq.trans howner.symm))
  · obtain ⟨th, -, -, hcpu, -⟩ := hget i th' hi
    exact hcpu hsleep

theorem SleepOk.schedule (h : SleepOk s) {cur : Option ℕ} (hs : s.schedule cpu cur next = .ok s') :
    SleepOk s' := by
  obtain ⟨hget, hsame, hpick⟩ := schedule_ok hs
  refine h.mono (by rw [hsame]) (fun i th' hi => ?_) (by rw [hsame]) (by rw [hsame]; exact h.wakes)
  rw [hget] at hi
  obtain ⟨th, hth, rfl⟩ := Option.map_eq_some_iff.1 hi
  refine ⟨th, hth, ?_, fun hsleep => ?_, fun hsleep _ => ?_⟩
  · split_ifs <;> rfl
  · split_ifs at hsleep ⊢ with hnext hcur hcur
    · cases hsleep
    · cases hsleep
    · rfl
    · exact h.cpu i th hth hsleep
  · have hpick' := hpick i th
    split_ifs at hpick' ⊢ with hnext hcur hcur
    · have := hpick' hnext hth
      simp [Thread.leave, Thread.pickable, hsleep] at this
    · have := hpick' hnext hth
      simp [Thread.pickable, hsleep] at this
    · simp [Thread.leave, hsleep]
    · exact hsleep

/-- The caller of `sleep_ms` sleeps, and no other thread falls asleep or wakes up. -/
theorem exists_of_sleepMs (hs : s.sleepMs cpu tid ms next = .ok s') {i : ℕ} {th' : Thread}
    (hi : get s'.threads i = some th') :
    ∃ th, get s.threads i = some th ∧ th'.ident = th.ident ∧
      (i = tid → th'.state = .sleep ∧ th'.cpu = -1) ∧
      (i ≠ tid → th'.state = .sleep → th' = th) ∧
      (i ≠ tid → th.state = .sleep → th'.state = .sleep) := by
  obtain ⟨thread, -, -, -, hget, hpick, -⟩ := sleepMs_ok hs
  rw [hget] at hi
  obtain ⟨th, hth, rfl⟩ := Option.map_eq_some_iff.1 hi
  refine ⟨th, hth, ?_, fun heq => ?_, fun hne => ?_, fun hne hsleep => ?_⟩
  · split_ifs <;> rfl
  · rw [if_pos heq]
    exact ⟨rfl, rfl⟩
  · rw [if_neg hne]
    split_ifs with hni
    · intro hsleep
      cases hsleep
    · exact fun _ => rfl
  · rw [if_neg hne]
    split_ifs with hni
    · have := hpick i th hni hth
      simp [Thread.pickable, hsleep] at this
    · exact hsleep

theorem exists_of_mem_insertAfter {owner : ℕ} {n : SleepNode}
    (hn : n ∈ (insertAfter ms tid owner 0 nodes).1) :
    (n.tid = tid ∧ n.owner = owner) ∨ ∃ m ∈ nodes, m.tid = n.tid ∧ m.owner = n.owner := by
  have hkeys := keys_insertAfter ms tid owner 0 nodes
  rcases mem_cons.1 (hkeys.subset (mem_map_of_mem hn)) with hkey | hkey
  · exact Or.inl ⟨congrArg Prod.fst hkey, congrArg Prod.snd hkey⟩
  · obtain ⟨m, hm, hkey⟩ := mem_map.1 hkey
    exact Or.inr ⟨m, hm, congrArg Prod.fst hkey, congrArg Prod.snd hkey⟩

theorem SleepOk.sleepMs (h : SleepOk s) (hs : s.sleepMs cpu tid ms next = .ok s') : SleepOk s' := by
  obtain ⟨thread, hthread, hrunning, -, -, -, hsame⟩ := sleepMs_ok hs
  have hqueue : s'.queue = (insertAfter ms tid thread.ident 0 s.queue).1 := by rw [hsame]
  have hident : s'.nextIdent = s.nextIdent := by rw [hsame]
  -- a node for this thread would mean that it sleeps
  have hnone : ∀ n ∈ s.queue, n.tid ≠ tid := fun n hn heq => by
    have := (h.queue.sleeping n hn thread (heq ▸ hthread)).2
    rw [hrunning] at this
    cases this
  refine ⟨⟨?_, fun n hn th' hth' => ?_⟩, fun i j th' th1' hi hj heq => ?_, fun i th' hi => ?_,
    fun n hn => ?_, fun i th' hi hsleep => ?_, by rw [hsame]; exact h.wakes⟩
  · have hperm := (keys_insertAfter ms tid thread.ident 0 s.queue).map Prod.fst
    rw [← hqueue, map_map, map_cons, map_map] at hperm
    refine hperm.nodup_iff.2 (nodup_cons.2 ⟨fun hmem => ?_, h.queue.nodup⟩)
    obtain ⟨n, hn, heq⟩ := mem_map.1 hmem
    exact hnone n hn heq
  · obtain ⟨th, hth, hid, hself, -, hother⟩ := exists_of_sleepMs hs hth'
    rcases exists_of_mem_insertAfter (hqueue ▸ hn) with ⟨htid, howner⟩ | ⟨m, hm, htid, howner⟩
    · cases hthread.symm.trans (htid ▸ hth)
      exact ⟨hid.trans howner.symm, (hself htid).1⟩
    · obtain ⟨hid0, hsleep⟩ := h.queue.sleeping m hm th (htid ▸ hth)
      exact ⟨hid.trans (hid0.trans howner), hother (htid ▸ hnone m hm) hsleep⟩
  · obtain ⟨th, hth, hid, -⟩ := exists_of_sleepMs hs hi
    obtain ⟨th1, hth1, hid1, -⟩ := exists_of_sleepMs hs hj
    exact h.ident i j th th1 hth hth1 (hid.symm.trans (heq.trans hid1))
  · obtain ⟨th, hth, hid, -⟩ := exists_of_sleepMs hs hi
    rw [hid, hident]
    exact h.fresh i th hth
  · rw [hident]
    rcases exists_of_mem_insertAfter (hqueue ▸ hn) with ⟨htid, howner⟩ | ⟨m, hm, htid, howner⟩
    · refine ⟨howner ▸ h.fresh tid thread hthread, fun i th' hi heq => ?_⟩
      obtain ⟨th, hth, hid, -⟩ := exists_of_sleepMs hs hi
      exact (h.ident i tid th thread hth hthread
        (hid.symm.trans (heq.trans howner))).trans htid.symm
    · refine ⟨howner ▸ (h.owner m hm).1, fun i th' hi heq => ?_⟩
      obtain ⟨th, hth, hid, -⟩ := exists_of_sleepMs hs hi
      exact ((h.owner m hm).2 i th hth (hid.symm.trans (heq.trans howner.symm))).trans htid
  · obtain ⟨th, hth, -, hself, hother, -⟩ := exists_of_sleepMs hs hi
    by_cases hi' : i = tid
    · exact (hself hi').2
    · obtain rfl := hother hi' hsleep
      exact h.cpu i _ hth hsleep

/-! ### Ticks -/

/-- The first node is counted down. -/
def countDown : List SleepNode → List SleepNode
  | [] => []
  | cur :: next => { cur with timeLeft := cur.timeLeft - 1 } :: next

/-- The time of the first node is over before it is counted down. -/
def frontWraps : List SleepNode → Bool
  | [] => false
  | cur :: _ => cur.timeLeft = 0

theorem keys_countDown (nodes : List SleepNode) :
    (countDown nodes).map SleepNode.key = nodes.map SleepNode.key := by
  cases nodes <;> rfl

theorem advanceRound_eq (s : Sched) : s.advanceRound =
    { s with wrapped := s.wrapped || frontWraps s.queue }.wakeAll (countDown s.queue) := by
  obtain ⟨threads, processes, queue, lagged, dying, clock, nextIdent, wrapped, wakes⟩ := s
  cases queue with
  | nil => simp [advanceRound, frontWraps, countDown, wakeAll]
  | cons cur next => rfl

theorem QueueOk.countDown (h : QueueOk s nodes) : QueueOk s (countDown nodes) := by
  have hkeys := keys_countDown nodes
  refine ⟨nodup_tid_of_keys (by rw [hkeys]) h.nodup, fun n hn th hth => ?_⟩
  obtain ⟨m, hm, htid, howner⟩ := exists_of_keys (fun x hx => hkeys ▸ hx) hn
  rw [← howner]
  exact h.sleeping m hm th (htid ▸ hth)

/-- **A round of `advance_time` returns**: the assertion holds. -/
theorem QueueOk.advanceRound (h : QueueOk s s.queue) : ∃ s', s.advanceRound = .ok s' ∧
    Woken { s with wrapped := s.wrapped || frontWraps s.queue } s'
      (((Sched.countDown s.queue).takeWhile (·.timeLeft = 0)).map (·.tid)) ∧
    s'.queue = (Sched.countDown s.queue).dropWhile (·.timeLeft = 0) := by
  have hok : QueueOk { s with wrapped := s.wrapped || frontWraps s.queue }
      (Sched.countDown s.queue) := ⟨h.countDown.nodup, h.countDown.sleeping⟩
  rw [advanceRound_eq]
  exact wakeAll_spec hok

theorem SleepOk.advanceRound (h : SleepOk s) : ∃ s', s.advanceRound = .ok s' ∧ SleepOk s' ∧
    Woken { s with wrapped := s.wrapped || frontWraps s.queue } s'
      (((countDown s.queue).takeWhile (·.timeLeft = 0)).map (·.tid)) ∧
    s'.queue = (countDown s.queue).dropWhile (·.timeLeft = 0) := by
  have hkeys := keys_countDown s.queue
  obtain ⟨s', hs', hwoken, hqueue⟩ := h.queue.advanceRound
  refine ⟨s', hs', ?_, hwoken, hqueue⟩
  have hsub := (dropWhile_sublist (fun n : SleepNode => decide (n.timeLeft = 0))
    (l := countDown s.queue)).map SleepNode.key
  refine h.mono (by rw [hqueue, ← hkeys]; exact hsub) (fun i th' hi => ?_) (by rw [hwoken.same])
    fun p hp => (hwoken.wakes p hp).elim (h.wakes p) id
  rw [hwoken.get] at hi
  split_ifs at hi with hmem
  · obtain ⟨th, hth, rfl⟩ := Option.map_eq_some_iff.1 hi
    refine ⟨th, hth, rfl, (by intro hsleep; cases hsleep), fun _ ⟨n, hn, hni⟩ => ?_⟩
    -- the node of a thread that was woken up is gone
    have hnodup := h.queue.countDown.nodup
    rw [← takeWhile_append_dropWhile (p := fun n : SleepNode => decide (n.timeLeft = 0))
      (l := countDown s.queue), map_append, ← hqueue] at hnodup
    exact absurd rfl ((nodup_append.1 hnodup).2.2 i hmem i (mem_map.2 ⟨n, hn, hni⟩))
  · exact ⟨th', hi, rfl, h.cpu i th' hi, fun hsleep _ => hsleep⟩

/-- The invariant does not depend on the counters. -/
theorem SleepOk.setTicks (h : SleepOk s) (clock lagged : ℕ) :
    SleepOk { s with clock := clock, laggedTicks := lagged } :=
  ⟨⟨h.queue.nodup, h.queue.sleeping⟩, h.ident, h.fresh, h.owner, h.cpu, h.wakes⟩

/-- **`advance_time` returns.** -/
theorem SleepOk.advanceTime (h : SleepOk s) (locked : Bool) :
    ∃ s', s.advanceTime locked = .ok s' ∧ SleepOk s' := by
  unfold Sched.advanceTime
  cases locked with
  | true => exact ⟨_, rfl, h.setTicks _ _⟩
  | false =>
    have hloop : ∀ n, ∃ s', forRange n (fun _ s => s.advanceRound)
        { s with clock := s.clock + 1 } = .ok s' ∧ SleepOk s' := fun n => by
      induction n with
      | zero => exact ⟨_, rfl, h.setTicks _ _⟩
      | succ n ih =>
        obtain ⟨s1, hs1, hok1⟩ := ih
        obtain ⟨s2, hs2, hok2, -⟩ := hok1.advanceRound
        refine ⟨s2, ?_, hok2⟩
        rw [forRange_succ, hs1, ok_bind, hs2]
    obtain ⟨s1, hs1, hok1⟩ := hloop (s.laggedTicks + 1)
    refine ⟨{ s1 with laggedTicks := 0 }, ?_, hok1.setTicks _ _⟩
    rw [if_neg Bool.false_ne_true, hs1]
    rfl

end Invariant

end Sched

end DripOS
