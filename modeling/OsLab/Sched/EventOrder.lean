import OsLab.Foundation.StableSort
import OsLab.Sched.Horizon

/-! The order of the event list. A handler dispatches at most one process, and that one has no event
in the queue while its remaining time changes; so the queue stays in the order in which the
comparator of `enqueue_event` put it. -/

namespace OsLab.Sched

variable {n : Nat} {pol : Policy}

def Event.remaining (ps : Table n) (e : Event n) : Int :=
  match e.process with
  | some p => (ps p).remainingTime
  | none => 0

def LiveLe (ps : Table n) (a b : Event n) : Prop :=
  a.time < b.time ∨ a.time = b.time ∧ a.remaining ps ≤ b.remaining ps

def LiveOrdered (ps : Table n) (events : List (Event n)) : Prop := events.Pairwise (LiveLe ps)

theorem LiveLe.trans {ps : Table n} {a b c : Event n} (h : LiveLe ps a b) (h' : LiveLe ps b c) :
    LiveLe ps a c := by
  unfold LiveLe at *
  omega

theorem LiveLe.of_stopsAt {ps : Table n} {e c : Event n} (h : stopsAt ps true e c = true) :
    LiveLe ps e c := by
  unfold stopsAt at h
  unfold LiveLe Event.remaining
  split at h
  · left
    assumption
  · simp only [Bool.true_and, Bool.and_eq_true, beq_iff_eq] at h
    obtain ⟨htime, hrem⟩ := h
    refine .inr ⟨htime, ?_⟩
    cases he : e.process with
    | none => simp [he] at hrem
    | some p =>
      cases hc : c.process with
      | none => simp [he, hc] at hrem
      | some q =>
        simp only [he, hc, decide_eq_true_eq] at hrem
        exact hrem.le

theorem LiveLe.of_not_stopsAt {ps : Table n} {e c : Event n} (he : e.process.isSome)
    (hc : c.process.isSome) (h : stopsAt ps true e c = false) : LiveLe ps c e := by
  obtain ⟨p, hp⟩ := Option.isSome_iff_exists.mp he
  obtain ⟨q, hq⟩ := Option.isSome_iff_exists.mp hc
  unfold stopsAt at h
  unfold LiveLe Event.remaining
  simp only [hp, hq] at h ⊢
  split at h
  · cases h
  · by_cases htime : e.time = c.time
    · simp [htime] at h
      omega
    · omega

theorem LiveOrdered.enqueueEvent {ps : Table n} {q : EventQueue n} {e : Event n}
    (h : LiveOrdered ps q.items) (he : e.process.isSome) (hq : ∀ c ∈ q.items, c.process.isSome) :
    LiveOrdered ps (enqueueEvent ps q e true).items := by
  have : IsTrans (Event n) (LiveLe ps) := ⟨fun _ _ _ => LiveLe.trans⟩
  exact pairwise_insertBefore (fun c hc hpass => .of_not_stopsAt he (hq c hc) hpass)
    (fun c _ hstop => .of_stopsAt hstop) h

theorem LiveOrdered.congr {ps ps' : Table n} {events : List (Event n)} (h : LiveOrdered ps events)
    (hsame : ∀ e ∈ events, e.remaining ps' = e.remaining ps) : LiveOrdered ps' events := by
  refine h.imp_of_mem fun {a b} ha hb hle => ?_
  unfold LiveLe at hle ⊢
  rwa [hsame a ha, hsame b hb]

theorem Event.remaining_congr {ps ps' : Table n} {e : Event n}
    (h : ∀ p, e.process = some p → (ps' p).remainingTime = (ps p).remainingTime) :
    e.remaining ps' = e.remaining ps := by
  unfold remaining
  cases hp : e.process with
  | none => rfl
  | some p => exact h p hp

namespace SchedulerState

variable {w : Workload n} {s s' a : SchedulerState pol n} {p : Fin n} {e : Event n}
  {q : EventQueue n}

/-- The event queue with its history is the same, and so is what remains of the processes. -/
structure SameEvents (s a : SchedulerState pol n) : Prop where
  eventQueue : a.eventQueue = s.eventQueue
  handled : a.handled = s.handled
  enqueued : a.enqueued = s.enqueued
  currentTime : a.currentTime = s.currentTime
  remaining : ∀ p, (a.processes p).remainingTime = (s.processes p).remainingTime

inductive Follows (arrange : Bool) (s s' : SchedulerState pol n) : Prop
  | keep (same : SameEvents s s')
  | dispatch (p : Fin n) (e : Event n) (running : s'.running = some p) (process : e.process = some p)
    (ends : e.endsSegment = true)
    (time : pol.Valid → 0 ≤ (s.processes p).remainingTime → s.currentTime ≤ e.time)
    (eventQueue : s'.eventQueue = enqueueEvent s'.processes s.eventQueue e arrange)
    (handled : s'.handled = s.handled) (currentTime : s'.currentTime = s.currentTime)
    (enqueued : s'.enqueued = s.enqueued ++ [(s.currentTime, e)])
    (remaining : ∀ r, r ≠ p → (s'.processes r).remainingTime = (s.processes r).remainingTime)

theorem SameEvents.refl (s : SchedulerState pol n) : SameEvents s s :=
  ⟨rfl, rfl, rfl, rfl, fun _ => rfl⟩

theorem SameEvents.follows {arrange : Bool} (h : SameEvents s a) (ha : Follows arrange a s') :
    Follows arrange s s' := by
  cases ha with
  | keep same =>
    exact .keep ⟨same.eventQueue.trans h.eventQueue, same.handled.trans h.handled,
      same.enqueued.trans h.enqueued, same.currentTime.trans h.currentTime,
      fun p => (same.remaining p).trans (h.remaining p)⟩
  | dispatch p e running process ends time eventQueue handled currentTime enqueued remaining =>
    refine .dispatch p e running process ends ?_ (h.eventQueue ▸ eventQueue)
      (handled.trans h.handled) (currentTime.trans h.currentTime) (by rw [enqueued, h.enqueued, h.currentTime])
      fun r hr => (remaining r hr).trans (h.remaining r)
    rw [← h.remaining, ← h.currentTime]
    exact time

theorem runTime_nonneg (hpol : pol.Valid) (hrem : 0 ≤ (s.processes p).remainingTime) :
    0 ≤ s.runTime p := (Policy.schedule_runTime hpol s.eventQueue s.currentTime hrem).2.1

theorem queueSegmentEnd_follows (arrange : Bool) (hrunning : a.running = some p)
    (heventQueue : a.eventQueue = s.eventQueue) (hhandled : a.handled = s.handled)
    (henqueued : a.enqueued = s.enqueued) (hnow : a.currentTime = s.currentTime)
    (hremaining : ∀ r, r ≠ p → (a.processes r).remainingTime = (s.processes r).remainingTime) :
    Follows arrange s (a.queueSegmentEnd p (s.runTime p) arrange) := by
  refine .dispatch p ⟨a.currentTime + s.runTime p,
    if (a.processes p).remainingTime = 0 then .completion p else .quantumExpire p⟩ hrunning ?_ ?_
    (fun hpol hrem => ?_) ?_ hhandled hnow ?_ hremaining
  · unfold Event.process
    split_ifs <;> rfl
  · unfold Event.endsSegment
    split_ifs <;> rfl
  · have := runTime_nonneg hpol hrem
    show s.currentTime ≤ a.currentTime + s.runTime p
    omega
  · rw [← heventQueue]
    rfl
  · rw [← henqueued, ← hnow]
    rfl

theorem dispatch_follows (s : SchedulerState pol n) (p : Fin n) (arrange : Bool) :
    Follows arrange s (s.dispatch p arrange) :=
  queueSegmentEnd_follows (a := (s.startSegment p).1) arrange rfl rfl rfl rfl rfl fun _ hr =>
    congrArg Process.remainingTime (Function.update_of_ne hr ..)

theorem dispatchStamped_follows (s : SchedulerState pol n) (p : Fin n) :
    Follows pol.sortByBurstTime s (handleQuantumExpire.dispatchStamped s p) := by
  have hremaining : ∀ r, r ≠ p →
      ((s.startSegment p).1.processes r).remainingTime = (s.processes r).remainingTime :=
    fun _ hr => congrArg Process.remainingTime (Function.update_of_ne hr ..)
  unfold handleQuantumExpire.dispatchStamped
  dsimp only
  split_ifs
  · refine queueSegmentEnd_follows pol.sortByBurstTime (ensureFinish_running ..)
      (ensureFinish_eventQueue ..) ?_ (ensureFinish_enqueued ..) (ensureFinish_currentTime ..)
      fun _ hr => (ensureFinish_remainingTime ..).trans (hremaining _ hr)
    unfold ensureFinish
    split_ifs <;> rfl
  · exact queueSegmentEnd_follows pol.sortByBurstTime rfl rfl rfl rfl rfl hremaining

theorem dispatchNext_follows (s : SchedulerState pol n) (arrange : Bool) :
    Follows arrange s (s.dispatchNext arrange) := by
  rcases s.dispatchNext_cases arrange with ⟨_, heq⟩ | ⟨p, waiting, _, _, heq⟩
  · rw [heq]
    exact .keep ⟨rfl, rfl, rfl, rfl, fun _ => rfl⟩
  · rw [heq]
    have hsame : SameEvents s { s with waiting := waiting } := ⟨rfl, rfl, rfl, rfl, fun _ => rfl⟩
    exact hsame.follows (dispatch_follows _ p arrange)

theorem expireNext_follows (s : SchedulerState pol n) :
    Follows pol.sortByBurstTime s (handleQuantumExpire.next s) := by
  rcases s.expireNext_cases with ⟨_, heq⟩ | ⟨p, waiting, _, heq⟩
  · rw [heq]
    exact .keep ⟨rfl, rfl, rfl, rfl, fun _ => rfl⟩
  · rw [heq]
    have hsame : SameEvents s { s with waiting := waiting } := ⟨rfl, rfl, rfl, rfl, fun _ => rfl⟩
    exact hsame.follows (dispatchStamped_follows _ p)

theorem addWaiting_same (s : SchedulerState pol n) (p : Fin n) : SameEvents s (s.addWaiting p) :=
  ⟨rfl, rfl, rfl, rfl, (pol.enqueue_sameTimes s.processes s.waiting p).remainingTime⟩

theorem released_same (s : SchedulerState pol n) : SameEvents s s.released := by
  unfold released stampRunning ensureFinish
  split
  · split_ifs
    · exact ⟨rfl, rfl, rfl, rfl, Table.modify_field Process.remainingTime s.processes _ _ rfl⟩
    · exact ⟨rfl, rfl, rfl, rfl, fun _ => rfl⟩
  · exact ⟨rfl, rfl, rfl, rfl, fun _ => rfl⟩

theorem requeued_same (s : SchedulerState pol n) : SameEvents s s.requeued := by
  cases hrun : s.running with
  | none =>
    rw [requeued_of_idle hrun]
    exact .refl s
  | some r =>
    rw [requeued_of_running hrun]
    exact ⟨rfl, rfl, rfl, rfl, (putBack_sameTimes s r).remainingTime⟩

theorem handleArrival_follows (s : SchedulerState pol n) (p : Fin n) :
    ∃ q, (q = s.eventQueue ∨ (pol.isStcf ∧ ∃ r, q = removeEventForProcess s.eventQueue r)) ∧
      Follows pol.sortByBurstTime { s with eventQueue := q } (s.handleArrival p) := by
  unfold handleArrival
  split
  · exact ⟨_, .inl rfl, dispatch_follows s p _⟩
  · rename_i r _
    split
    · rename_i hpre
      refine ⟨_, .inr ⟨hpre.1, r, rfl⟩, ?_⟩
      exact (addWaiting_same _ r).follows (dispatch_follows _ p _)
    · exact ⟨_, .inl rfl, .keep (addWaiting_same s p)⟩

theorem handlePriorityBoost_follows (s : SchedulerState pol n) :
    Follows pol.sortByBurstTime s s.handlePriorityBoost := by
  cases pol with
  | mlfq config hpos =>
    have hboosted : SameEvents s (handlePriorityBoost.boostWaiting s) :=
      ⟨rfl, rfl, rfl, rfl, (mlfqPriorityBoost_sameTimes s.processes s.waiting).remainingTime⟩
    rcases s.handlePriorityBoost_cases with ⟨_, heq⟩ | ⟨r, _, _, heq⟩ | ⟨r, _, _, heq | heq⟩
    · rw [heq]
      exact hboosted.follows (dispatchNext_follows _ false)
    · rw [heq]
      exact .keep (.refl s)
    · rw [heq]
      exact .keep hboosted
    · rw [heq]
      have hrequeued : SameEvents s (s.boostRunning r) :=
        ⟨rfl, rfl, rfl, rfl, (boostRunning_sameTimes s r).remainingTime⟩
      exact hrequeued.follows (dispatchNext_follows _ false)
  | _ => exact .keep (.refl s)

theorem handleEvent_follows (s : SchedulerState pol n) (e : Event n) :
    ∃ q, (q = s.eventQueue ∨ (pol.isStcf ∧ ∃ r, q = removeEventForProcess s.eventQueue r)) ∧
      Follows pol.sortByBurstTime { s with eventQueue := q } (s.handleEvent e) := by
  unfold handleEvent
  split
  · exact s.handleArrival_follows _
  · exact ⟨_, .inl rfl, s.released_same.follows (dispatchNext_follows s.released _)⟩
  · rw [handleQuantumExpire_eq_next]
    exact ⟨_, .inl rfl, s.requeued_same.follows (expireNext_follows s.requeued)⟩
  · exact ⟨_, .inl rfl, s.handlePriorityBoost_follows⟩

theorem cancelled_sublist {q q' : EventQueue n} {stcf : Prop}
    (h : q' = q ∨ (stcf ∧ ∃ r, q' = removeEventForProcess q r)) : q'.items.Sublist q.items := by
  rcases h with rfl | ⟨_, r, rfl⟩
  · exact .refl _
  · exact List.eraseP_sublist

/-- From the first event that was handled to the last one that is queued, equal times stand in the
order in which the events were queued. -/
def InInsertionOrder (s : SchedulerState pol n) : Prop :=
  ∀ t, (s.handled ++ s.eventQueue.items).filter (·.time = t) =
    (s.enqueued.map Prod.snd).filter (·.time = t)

theorem stopsAt_false {ps : Table n} {e c : Event n} (h : stopsAt ps false e c = true) :
    e.time < c.time := by
  unfold stopsAt at h
  split at h
  · assumption
  · simp at h

theorem InInsertionOrder.addEvent (h : s.InInsertionOrder) (hordered : TimeOrdered s.eventQueue.items)
    (heventQueue : s'.eventQueue = enqueueEvent s'.processes s.eventQueue e false)
    (hhandled : s'.handled = s.handled)
    (henqueued : s'.enqueued = s.enqueued ++ [(s.currentTime, e)]) : s'.InInsertionOrder := by
  intro t
  have hitems : s'.eventQueue.items.filter (·.time = t) =
      (s.eventQueue.items ++ [e]).filter (·.time = t) := by
    rw [heventQueue]
    exact filter_insertBefore hordered (fun _ _ => stopsAt_false) t
  rw [hhandled, henqueued, List.filter_append, hitems, List.filter_append, ← List.append_assoc,
    ← List.filter_append, h t, List.map_append, List.filter_append]
  rfl

theorem InInsertionOrder.follows (h : s.InInsertionOrder) (hordered : TimeOrdered s.eventQueue.items)
    (hs : Follows false s s') : s'.InInsertionOrder ∧ TimeOrdered s'.eventQueue.items := by
  cases hs with
  | keep same =>
    unfold InInsertionOrder
    rw [same.handled, same.eventQueue, same.enqueued]
    exact ⟨h, hordered⟩
  | dispatch p e running process ends time eventQueue handled currentTime enqueued remaining =>
    refine ⟨h.addEvent hordered eventQueue handled enqueued, ?_⟩
    rw [eventQueue]
    exact enqueueEvent_ordered _ e false hordered

theorem startState_inInsertionOrder (hsort : pol.sortByBurstTime = false) :
    (startState pol w).InInsertionOrder ∧ TimeOrdered (startState pol w).eventQueue.items := by
  have hadd : ∀ (s : SchedulerState pol n) (e : Event n),
      s.InInsertionOrder ∧ TimeOrdered s.eventQueue.items →
      (s.addEvent e false).InInsertionOrder ∧ TimeOrdered (s.addEvent e false).eventQueue.items :=
    fun s e h => ⟨h.1.addEvent h.2 rfl rfl rfl, enqueueEvent_ordered _ e false h.2⟩
  refine startState_induction
    (fun _ s => s.InInsertionOrder ∧ TimeOrdered s.eventQueue.items) ⟨fun _ => rfl, .nil⟩
    (fun _ p s _ _ _ h => ?_) fun _ time s _ _ _ _ _ h => hadd s _ h
  rw [hsort]
  exact hadd s _ h

theorem popped_events (s : SchedulerState pol n) (hq : s.eventQueue.items = e :: q.items) :
    (s.popped e q).handled ++ (s.popped e q).eventQueue.items = s.handled ++ s.eventQueue.items := by
  rw [hq, List.append_cons]
  rfl

theorem Reaches.inInsertionOrder (hsort : pol.sortByBurstTime = false)
    (h : Loop.Reaches loopBody (startState pol w) s) :
    s.InInsertionOrder ∧ TimeOrdered s.eventQueue.items := by
  refine h.invariant (fun s => s.InInsertionOrder ∧ TimeOrdered s.eventQueue.items)
    (fun s s' hb hs => ?_) (startState_inInsertionOrder hsort)
  obtain ⟨e, q, hq, rfl⟩ := loopBody_eq_some hb
  have hpopped : (s.popped e q).InInsertionOrder := by
    intro t
    rw [popped_events s hq]
    exact hs.1 t
  have hordered : TimeOrdered (e :: q.items) := hq ▸ hs.2
  obtain ⟨q', hq', hfollows⟩ := (s.popped e q).handleEvent_follows e
  obtain rfl : q' = q := hq'.resolve_right fun hstcf => by
    cases pol <;> simp_all [Policy.isStcf, Policy.sortByBurstTime]
  rw [hsort] at hfollows
  exact hpopped.follows hordered.of_cons hfollows

structure Chronological (s : SchedulerState pol n) : Prop where
  ordered : TimeOrdered (s.handled ++ s.eventQueue.items)
  past : ∀ e ∈ s.handled, e.time ≤ s.currentTime

theorem Chronological.popped (h : s.Chronological) (hq : s.eventQueue.items = e :: q.items) :
    (s.popped e q).Chronological where
  ordered := by
    rw [popped_events s hq]
    exact h.ordered
  past e' he' := by
    have hordered := h.ordered
    rw [hq] at hordered
    rcases List.mem_append.mp he' with he' | he'
    · exact (List.pairwise_append.mp hordered).2.2 e' he' e List.mem_cons_self
    · rw [List.mem_singleton.mp he']
      exact le_rfl

theorem Chronological.sublist (h : s.Chronological) (hq : q.items.Sublist s.eventQueue.items) :
    { s with eventQueue := q }.Chronological :=
  ⟨h.ordered.sublist (hq.append_left s.handled), h.past⟩

theorem Chronological.follows {arrange : Bool} (hpol : pol.Valid)
    (hleft : ∀ p, 0 ≤ (s.processes p).remainingTime) (h : s.Chronological)
    (hs : Follows arrange s s') : s'.Chronological := by
  cases hs with
  | keep same =>
    refine ⟨?_, ?_⟩
    · rw [same.handled, same.eventQueue]
      exact h.ordered
    · rw [same.handled, same.currentTime]
      exact h.past
  | dispatch p e running process ends time eventQueue handled currentTime enqueued remaining =>
    obtain ⟨hhandled, hqueued, hbetween⟩ := List.pairwise_append.mp h.ordered
    refine ⟨?_, ?_⟩
    · rw [handled, eventQueue]
      refine List.pairwise_append.mpr
        ⟨hhandled, enqueueEvent_ordered _ e arrange hqueued, fun a ha b hb => ?_⟩
      rcases mem_enqueueEvent.mp hb with rfl | hb
      · exact (h.past a ha).trans (time hpol (hleft p))
      · exact hbetween a ha b hb
    · rw [handled, currentTime]
      exact h.past

theorem Reaches.chronological (hw : w.Nonneg) (hpol : pol.Valid)
    (h : Loop.Reaches loopBody (startState pol w) s) : s.Chronological := by
  induction h with
  | refl =>
    have hstart := startState_starting hw pol
    refine ⟨?_, ?_⟩
    · rw [hstart.handled]
      exact hstart.ordered
    · simp [hstart.handled]
  | @tail s s' hr hb ih =>
    obtain ⟨e, q, hq, rfl⟩ := loopBody_eq_some hb
    have hleft : ∀ p, 0 ≤ (s.processes p).remainingTime := fun p =>
      ((Reaches.funded hw hpol hr).left p).1
    obtain ⟨q', hq', hfollows⟩ := (s.popped e q).handleEvent_follows e
    exact Chronological.follows (s := { s.popped e q with eventQueue := q' }) hpol hleft
      ((ih.popped hq).sublist (cancelled_sublist hq')) hfollows

theorem Event.process_isSome {e : Event n} (he : e.type ≠ .priorityBoost) : e.process.isSome := by
  unfold Event.process
  cases htype : e.type <;> simp_all

theorem Coherent.process_ne {ps : Table n} {arrange : Bool} (h : Coherent w s)
    (hrun : s.running = some p) (hends : e.endsSegment = true)
    (hqueue : s.eventQueue = enqueueEvent ps q e arrange) : ∀ c ∈ q.items, c.process ≠ some p := by
  intro c hc hprocess
  have hpending : p ∉ arrivals s.eventQueue.items := fun hmem =>
    h.cpu.notMem_pending_of_running hrun (Multiset.mem_coe.mpr hmem)
  have hmem : c ∈ s.eventQueue.items := by
    rw [hqueue]
    exact mem_enqueueEvent.mpr (.inr hc)
  have hperm := (insertBefore_perm (stopsAt ps arrange e) e q.items).filter Event.endsSegment
  have hsegment : segmentEnds s.eventQueue.items = [s.segmentEnd p] := h.segmentEnds_eq hrun
  have hnone : segmentEnds q.items = [] := by
    rw [List.filter_cons_of_pos hends] at hperm
    have hlength := hperm.length_eq
    rw [hqueue] at hsegment
    change (segmentEnds (enqueueEvent ps q e arrange).items).length = (segmentEnds q.items).length + 1
      at hlength
    rw [hsegment, List.length_singleton] at hlength
    exact List.length_eq_zero_iff.mp (by omega)
  cases htype : c.type with
  | arrival r =>
    simp only [Event.process, htype, Option.some.injEq] at hprocess
    exact hpending (mem_arrivals.mpr ⟨c, hmem, hprocess ▸ htype⟩)
  | priorityBoost => simp [Event.process, htype] at hprocess
  | _ =>
    have hcend : c ∈ segmentEnds q.items :=
      List.mem_filter.mpr ⟨hc, by simp [Event.endsSegment, htype]⟩
    rw [hnone] at hcend
    exact List.not_mem_nil hcend

theorem Coherent.liveOrdered (hc : Coherent w s') (hboosts : ∀ c ∈ s'.eventQueue.items,
    c.type ≠ .priorityBoost) (h : LiveOrdered s.processes s.eventQueue.items)
    (hs : Follows true s s') : LiveOrdered s'.processes s'.eventQueue.items := by
  cases hs with
  | keep same =>
    rw [same.eventQueue]
    exact h.congr fun e _ => Event.remaining_congr fun p _ => same.remaining p
  | dispatch p e running process ends time eventQueue handled currentTime enqueued remaining =>
    have hne := hc.process_ne running ends eventQueue
    have hsame : LiveOrdered s'.processes s.eventQueue.items := h.congr fun c hcmem =>
      Event.remaining_congr fun r hr => remaining r fun heq => hne c hcmem (heq ▸ hr)
    have hqueued : ∀ c ∈ s.eventQueue.items, c.process.isSome := fun c hcmem =>
      Event.process_isSome (hboosts c (eventQueue ▸ mem_enqueueEvent.mpr (.inr hcmem)))
    rw [eventQueue]
    exact hsame.enqueueEvent (by rw [process]; rfl) hqueued

theorem startState_liveOrdered (hsort : pol.sortByBurstTime = true) :
    LiveOrdered (startState pol w).processes (startState pol w).eventQueue.items := by
  have hperiod := boostPeriod_of_sort hsort
  refine (startState_induction (fun _ s => LiveOrdered s.processes s.eventQueue.items ∧
    ∀ c ∈ s.eventQueue.items, c.process.isSome) ⟨.nil, by simp [initialState]⟩
    (fun _ p s _ _ _ ⟨hlive, hprocess⟩ => ?_)
    fun _ _ _ _ _ hboost => absurd hboost (by omega)).1
  rw [hsort]
  refine ⟨hlive.enqueueEvent rfl hprocess, fun c hc => ?_⟩
  rcases mem_enqueueEvent.mp hc with rfl | hc
  · rfl
  · exact hprocess c hc

theorem Reaches.liveOrdered (hw : w.Nonneg) (hpol : pol.Valid) (hsort : pol.sortByBurstTime = true)
    (h : Loop.Reaches loopBody (startState pol w) s) :
    LiveOrdered s.processes s.eventQueue.items := by
  have hboost := boostPeriod_of_sort hsort
  induction h with
  | refl => exact startState_liveOrdered hsort
  | @tail s s' hr hb ih =>
    have hr' := hr.tail hb
    obtain ⟨e, q, hq, rfl⟩ := loopBody_eq_some hb
    obtain ⟨q', hq', hfollows⟩ := (s.popped e q).handleEvent_follows e
    have hsub : q'.items.Sublist s.eventQueue.items := by
      rw [hq]
      exact (cancelled_sublist hq').cons e
    rw [hsort] at hfollows
    exact Coherent.liveOrdered (s := { s.popped e q with eventQueue := q' })
      (Reaches.coherent hw hpol hboost hr') (Reaches.boosts hboost hr') (ih.sublist hsub) hfollows

end SchedulerState

open SchedulerState

/-- In every state of a run the event list is as its comparator wants it, and no event that is
handled is earlier than the one before it. -/
theorem reaches_eventOrder {w : Workload n} {s : SchedulerState pol n}
    (h : Loop.Reaches loopBody (startState pol w) s) :
    s.eventQueue.size = s.eventQueue.items.length ∧
      (pol.sortByBurstTime = false → TimeOrdered s.eventQueue.items ∧ s.InInsertionOrder) ∧
      (w.Nonneg → pol.Valid → TimeOrdered (s.handled ++ s.eventQueue.items) ∧
        (pol.sortByBurstTime = true → LiveOrdered s.processes s.eventQueue.items)) := by
  refine ⟨s.eventQueue.size_eq, fun hsort => ?_, fun hw hpol => ⟨?_, fun hsort => ?_⟩⟩
  · exact (Reaches.inInsertionOrder hsort h).symm
  · exact (Reaches.chronological hw hpol h).ordered
  · exact Reaches.liveOrdered hw hpol hsort h

/-- For STCF, the segment of the long process has just been taken out of the queue. -/
theorem reaches_eventOrder_sample :
    let s := Loop.advance loopBody 2 (startState .stcf sampleWorkload)
    let t := Loop.advance loopBody 2 (startState (.rr 2) sampleWorkload)
    s.eventQueue.size = s.eventQueue.items.length ∧ TimeOrdered (s.handled ++ s.eventQueue.items) ∧
      LiveOrdered s.processes s.eventQueue.items ∧ TimeOrdered t.eventQueue.items ∧
      t.InInsertionOrder := by
  have hstcf := reaches_eventOrder (Loop.reaches_advance loopBody 2 (startState .stcf sampleWorkload))
  have hrr := reaches_eventOrder (Loop.reaches_advance loopBody 2 (startState (.rr 2) sampleWorkload))
  obtain ⟨hchronological, hlive⟩ := hstcf.2.2 sampleWorkload_nonneg Policy.stcf_valid
  exact ⟨hstcf.1, hchronological, hlive rfl, hrr.2.1 rfl⟩

end OsLab.Sched
