import OsLab.Sched.Startup

/-! Whole runs of the event loop: when they end, and what the last state looks like. -/

namespace OsLab.Sched

variable {n : Nat} {pol : Policy}

namespace SchedulerState

variable {w : Workload n} {s s' : SchedulerState pol n} {p : Fin n}

/-- The event queue of `s` is `q`, or `q` with the end of one segment added. -/
def Queues (q : EventQueue n) (s : SchedulerState pol n) : Prop :=
  s.eventQueue = q ∨ ∃ ps e arrange, e.endsSegment = true ∧
    s.eventQueue = enqueueEvent ps q e arrange

theorem queueSegmentEnd_queues (s : SchedulerState pol n) (p : Fin n) (r : Int) (arrange : Bool) :
    Queues s.eventQueue (s.queueSegmentEnd p r arrange) := by
  refine .inr ⟨s.processes, _, arrange, ?_, rfl⟩
  unfold Event.endsSegment
  split_ifs <;> rfl

theorem dispatch_queues (s : SchedulerState pol n) (p : Fin n) (arrange : Bool) :
    Queues s.eventQueue (s.dispatch p arrange) := queueSegmentEnd_queues _ p _ arrange

theorem dispatchNext_queues (s : SchedulerState pol n) (arrange : Bool) :
    Queues s.eventQueue (s.dispatchNext arrange) := by
  unfold dispatchNext
  split
  · split
    · exact dispatch_queues _ _ arrange
    · exact .inl rfl
  · exact .inl rfl

theorem ensureFinish_eventQueue (s : SchedulerState pol n) (p : Fin n) (time : Int) :
    (s.ensureFinish p time).eventQueue = s.eventQueue := by
  unfold ensureFinish
  split <;> rfl

/-- What `handle_completion` does first. -/
def stampRunning (s : SchedulerState pol n) : SchedulerState pol n :=
  match s.running with
  | some running => s.ensureFinish running s.currentTime
  | none => s

theorem stampRunning_eventQueue (s : SchedulerState pol n) :
    s.stampRunning.eventQueue = s.eventQueue := by
  unfold stampRunning
  split
  · exact ensureFinish_eventQueue ..
  · rfl

/-- The state in which `handle_completion` looks for the next process. -/
def released (s : SchedulerState pol n) : SchedulerState pol n :=
  { s.stampRunning with running := none }

theorem handleCompletion_eq_dispatchNext (s : SchedulerState pol n) :
    s.handleCompletion = s.released.dispatchNext pol.sortByBurstTime := rfl

/-- The state in which `handle_quantum_expire` looks for the next process. -/
def requeued (s : SchedulerState pol n) : SchedulerState pol n :=
  match s.running with
  | some running => s.putBack running
  | none => s

theorem requeued_of_running (hrun : s.running = some p) : s.requeued = s.putBack p := by
  simp only [requeued, hrun]

theorem requeued_of_idle (hrun : s.running = none) : s.requeued = s := by
  simp only [requeued, hrun]

theorem handleQuantumExpire_eq_next (s : SchedulerState pol n) :
    s.handleQuantumExpire = handleQuantumExpire.next s.requeued := by
  unfold handleQuantumExpire requeued
  cases s.running <;> rfl

theorem reschedule_eq_dispatchNext (s : SchedulerState pol n) :
    handlePriorityBoost.reschedule s = s.dispatchNext false := rfl

theorem expireNext_cases (s : SchedulerState pol n) :
    (pol.members s.waiting = [] ∧ handleQuantumExpire.next s = { s with running := none }) ∨
      ∃ p waiting, pol.dequeue s.waiting = some (p, waiting) ∧
        handleQuantumExpire.next s =
          handleQuantumExpire.dispatchStamped { s with waiting := waiting } p := by
  cases hd : pol.dequeue s.waiting with
  | none =>
    have hnil := Policy.dequeue_eq_none.mp hd
    refine .inl ⟨hnil, ?_⟩
    rw [handleQuantumExpire.next, if_neg (by rw [Policy.size_eq, hnil]; simp)]
  | some r =>
    have hsize : 0 < pol.size s.waiting := by
      rw [Policy.size_pos_iff, Policy.dequeue_members hd]
      exact List.cons_ne_nil _ _
    exact .inr ⟨r.1, r.2, rfl, by simp only [handleQuantumExpire.next, if_pos hsize, hd]⟩

theorem dispatchStamped_queues (s : SchedulerState pol n) (p : Fin n) :
    Queues s.eventQueue (handleQuantumExpire.dispatchStamped s p) := by
  unfold handleQuantumExpire.dispatchStamped
  dsimp only
  by_cases hrem : ((s.startSegment p).1.processes p).remainingTime = 0
  · rw [if_pos hrem]
    have hqueues := queueSegmentEnd_queues ((s.startSegment p).1.ensureFinish p
      ((s.startSegment p).1.currentTime + (s.startSegment p).2)) p (s.startSegment p).2
      pol.sortByBurstTime
    rw [ensureFinish_eventQueue] at hqueues
    exact hqueues
  · rw [if_neg hrem]
    exact queueSegmentEnd_queues (s.startSegment p).1 p _ _

theorem expireNext_queues (s : SchedulerState pol n) :
    Queues s.eventQueue (handleQuantumExpire.next s) := by
  unfold handleQuantumExpire.next
  split
  · split
    · exact dispatchStamped_queues _ _
    · exact .inl rfl
  · exact .inl rfl

theorem handleEvent_queues (s : SchedulerState pol n) (e : Event n) :
    ∃ q, (q = s.eventQueue ∨ (pol.isStcf ∧ ∃ r, q = removeEventForProcess s.eventQueue r)) ∧
      Queues q (s.handleEvent e) := by
  unfold handleEvent
  split
  · unfold handleArrival
    split
    · exact ⟨_, .inl rfl, dispatch_queues s _ _⟩
    · split
      · rename_i hpre
        exact ⟨_, .inr ⟨hpre.1, _, rfl⟩, dispatch_queues (addWaiting _ _) _ _⟩
      · exact ⟨_, .inl rfl, .inl rfl⟩
  · rw [handleCompletion_eq_dispatchNext]
    exact ⟨_, .inl (stampRunning_eventQueue s), dispatchNext_queues s.released _⟩
  · unfold handleQuantumExpire
    split
    · exact ⟨_, .inl rfl, expireNext_queues (s.putBack _)⟩
    · exact ⟨_, .inl rfl, expireNext_queues s⟩
  · unfold handlePriorityBoost
    split
    · exact ⟨_, .inl rfl, .inl rfl⟩
    · split
      · rw [reschedule_eq_dispatchNext]
        exact ⟨_, .inl rfl, dispatchNext_queues _ false⟩
      · split
        · exact ⟨_, .inl rfl, .inl rfl⟩
        · dsimp only
          split
          · rw [reschedule_eq_dispatchNext]
            exact ⟨_, .inl rfl, dispatchNext_queues _ false⟩
          · exact ⟨_, .inl rfl, .inl rfl⟩

theorem mem_handleEvent {e e' : Event n} (he : e ∈ (s.handleEvent e').eventQueue.items) :
    e ∈ s.eventQueue.items ∨ e.endsSegment = true := by
  obtain ⟨q, hq, hqueues⟩ := handleEvent_queues s e'
  have hsub : ∀ e ∈ q.items, e ∈ s.eventQueue.items := by
    rcases hq with rfl | ⟨_, r, rfl⟩
    · exact fun _ he => he
    · exact fun _ he => List.eraseP_sublist.subset he
  rcases hqueues with hqueue | ⟨ps, end_, arrange, hend, hqueue⟩
  · exact .inl (hsub e (hqueue ▸ he))
  · rw [hqueue] at he
    rcases mem_enqueueEvent.mp he with rfl | he
    · exact .inr hend
    · exact .inl (hsub e he)

theorem boostPeriod_of_sort (hsort : pol.sortByBurstTime = true) : pol.boostPeriod ≤ 0 := by
  cases pol <;> simp_all [Policy.sortByBurstTime, Policy.boostPeriod]

theorem startState_boosts (hboost : pol.boostPeriod ≤ 0) :
    ∀ e ∈ (startState pol w).eventQueue.items, e.type ≠ .priorityBoost := by
  refine startState_induction (fun _ s => ∀ e ∈ s.eventQueue.items, e.type ≠ .priorityBoost)
    (by simp [initialState, CountedList.empty]) (fun _ p s _ _ _ hs e he => ?_)
    (fun _ _ _ _ _ hperiod => absurd hperiod (by omega))
  rcases mem_enqueueEvent.mp he with rfl | he
  · simp
  · exact hs e he

theorem Reaches.boosts_over (h : Loop.Reaches loopBody s s')
    (hs : ∀ e ∈ s.eventQueue.items, e.type ≠ .priorityBoost) :
    ∀ e ∈ s'.eventQueue.items, e.type ≠ .priorityBoost := by
  refine h.invariant (fun s => ∀ e ∈ s.eventQueue.items, e.type ≠ .priorityBoost)
    (fun a b hb ha e he htype => ?_) hs
  obtain ⟨e', q, hq, rfl⟩ := loopBody_eq_some hb
  rcases mem_handleEvent he with he | he
  · exact ha e (hq ▸ List.mem_cons_of_mem e' he) htype
  · simp [Event.endsSegment, htype] at he

theorem Reaches.boosts (hboost : pol.boostPeriod ≤ 0)
    (h : Loop.Reaches loopBody (startState pol w) s) :
    ∀ e ∈ s.eventQueue.items, e.type ≠ .priorityBoost :=
  Reaches.boosts_over h (startState_boosts hboost)

theorem Reaches.boostSafe (hboost : pol.boostPeriod ≤ 0)
    (h : Loop.Reaches loopBody (startState pol w) s) : s.BoostSafe := fun e _ hq htype =>
  absurd htype (Reaches.boosts hboost h e (dequeueEvent_eq_some.mp hq ▸ List.mem_cons_self))

theorem Reaches.via (hboost : pol.boostPeriod ≤ 0)
    (h : Loop.Reaches loopBody (startState pol w) s) :
    Loop.ReachesVia loopBody BoostSafe (startState pol w) s :=
  h.via fun _ ha => Reaches.boostSafe hboost ha

theorem Reaches.coherent (hw : w.Nonneg) (hpol : pol.Valid) (hboost : pol.boostPeriod ≤ 0)
    (h : Loop.Reaches loopBody (startState pol w) s) : Coherent w s :=
  ReachesVia.coherent hw hpol (Reaches.via hboost h)

theorem terminates (hw : w.Nonneg) (hpol : pol.Valid)
    (hsafe : ∀ s, Loop.Reaches loopBody (startState pol w) s → s.BoostSafe) :
    Loop.Terminates loopBody (startState pol w) := by
  refine Loop.terminates_of_measure (fun s => Loop.Reaches loopBody (startState pol w) s)
    wellFounded_lt measure (fun a b ha hb => ?_) .refl
  have hcoherent := ReachesVia.coherent hw hpol (ha.via hsafe)
  exact ⟨ha.tail hb, (hcoherent.round hw hpol (hsafe a ha) hb).2.2⟩

theorem simulateScheduler_eq_some {fuel : Nat} (h : simulateScheduler pol w fuel = some s') :
    ∃ s, Loop.Reaches loopBody (startState pol w) s ∧ s.loopBody = none ∧ s' = s.finish := by
  obtain ⟨s, hrun, hfinish⟩ := Option.map_eq_some_iff.mp h
  exact ⟨s, (Loop.run_reaches hrun).1, (Loop.run_reaches hrun).2, hfinish.symm⟩

theorem simulateScheduler_isSome (h : Loop.Terminates loopBody (startState pol w)) :
    ∃ fuel s, simulateScheduler pol w fuel = some s := by
  obtain ⟨fuel, s, hrun⟩ := h
  exact ⟨fuel, s.finish, by rw [simulateScheduler, hrun]; rfl⟩

theorem simulateScheduler_returns (hw : w.Nonneg) (hpol : pol.Valid)
    (hboost : pol.boostPeriod ≤ 0) : ∃ fuel s, simulateScheduler pol w fuel = some s :=
  simulateScheduler_isSome (terminates hw hpol fun _ hs => Reaches.boostSafe hboost hs)

section Ended

variable (h : Coherent w s) (hend : s.loopBody = none)
include h hend

theorem Coherent.running_of_ended : s.running = none := by
  have hends := h.ends
  rw [loopBody_eq_none.mp hend] at hends
  cases hrun : s.running with
  | none => rfl
  | some p => simp [hrun, segmentEnds] at hends

theorem Coherent.mem_completed (p : Fin n) : p ∈ completed s.handled := by
  have hrun := h.running_of_ended hend
  refine h.cpu.mem_finished ?_ ?_ ?_
  · simp [SchedulerState.cpu, view, arrivals, loopBody_eq_none.mp hend]
  · simp [SchedulerState.cpu, view, h.idle hrun]
  · simp [SchedulerState.cpu, view, hrun]

theorem Coherent.remainingTime_of_ended (p : Fin n) : (s.processes p).remainingTime = 0 :=
  (h.cpu.finished_done p (h.mem_completed hend p)).1

theorem Coherent.served_of_ended (p : Fin n) : served s.log p = w.burstTime p := by
  have := h.cpu.accounted p
  have := (h.cpu.finished_done p (h.mem_completed hend p)).1
  simp only [SchedulerState.cpu, view] at *
  omega

theorem Coherent.finish_eq : s.finish = s.calculateMetrics := by
  simp only [SchedulerState.finish, h.running_of_ended hend]

end Ended

end SchedulerState
end OsLab.Sched
