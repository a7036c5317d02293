import OsLab.Sched.Runs

/-! The state machine of the simulator: where each process is between two handled events, and
which event is queued for the running one. -/

namespace OsLab.Sched

variable {n : Nat} {pol : Policy}

/-- The running process is named by the one queued end of a segment, and every process is in one
place: not yet arrived, waiting, running, or completed. -/
structure Placed (s : SchedulerState pol n) : Prop where
  busy : ∀ p, s.running = some p → ∃ e, segmentEnds s.eventQueue.items = [e] ∧
    e.process = some p ∧ (e.type = .completion p ↔ (s.processes p).remainingTime = 0)
  idle : s.running = none → segmentEnds s.eventQueue.items = [] ∧ pol.members s.waiting = []
  place : ∀ p, (arrivals s.eventQueue.items).count p + (pol.members s.waiting).count p +
    (if s.running = some p then 1 else 0) + (completed s.handled).count p = 1
  finished : ∀ p ∈ completed s.handled, (s.processes p).remainingTime = 0
  handled : ∀ e q, dequeueEvent s.eventQueue = some (e, q) → e.endsSegment = true →
    s.running ≠ none ∧ e.process = s.running

namespace SchedulerState

variable {w : Workload n} {s : SchedulerState pol n}

theorem segmentEnd_completion_iff (s : SchedulerState pol n) (p : Fin n) :
    (s.segmentEnd p).type = .completion p ↔ (s.processes p).remainingTime = 0 := by
  unfold segmentEnd
  split_ifs with h <;> simp [h]

theorem Coherent.placed (h : Coherent w s) : Placed s where
  busy p hp := ⟨s.segmentEnd p, h.segmentEnds_eq hp, s.segmentEnd_process p,
    s.segmentEnd_completion_iff p⟩
  idle hnone := by
    refine ⟨?_, h.idle hnone⟩
    rw [h.ends, hnone]
    rfl
  place p := by
    have hcount := h.cpu.count_eq_one p
    have hpending : s.cpu.pending.count p = (arrivals s.eventQueue.items).count p :=
      Multiset.coe_count p _
    have hready : s.cpu.ready.count p = (pol.members s.waiting).count p := Multiset.coe_count p _
    have hfinished : s.cpu.finished.count p = (completed s.handled).count p :=
      Multiset.coe_count p _
    rw [Cpu.Inv.count_onCpu, hpending, hready, hfinished] at hcount
    exact hcount
  finished p hp := (h.cpu.finished_done p hp).1
  handled e q hq he := by
    obtain ⟨p, hp, rfl, _⟩ := h.of_endsSegment (dequeueEvent_eq_some.mp hq) he
    rw [hp, segmentEnd_process]
    exact ⟨Option.some_ne_none p, rfl⟩

end SchedulerState

/-- The state-machine invariant holds between any two handled events of a run without boosts. -/
theorem reaches_placed {w : Workload n} (hw : w.Nonneg) (hpol : pol.Valid)
    (hboost : pol.boostPeriod ≤ 0) {s : SchedulerState pol n}
    (h : Loop.Reaches SchedulerState.loopBody (startState pol w) s) : Placed s :=
  (SchedulerState.Reaches.coherent hw hpol hboost h).placed

/-- Two rounds into the run the short process has just preempted the long one. -/
theorem reaches_placed_stcf :
    Placed (Loop.advance SchedulerState.loopBody 2 (startState .stcf sampleWorkload)) :=
  reaches_placed sampleWorkload_nonneg Policy.stcf_valid (by decide)
    (Loop.reaches_advance ..)

end OsLab.Sched
