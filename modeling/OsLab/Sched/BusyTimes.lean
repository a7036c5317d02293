import OsLab.Sched.Accounting

/-! Work conservation. All policies serve the same processes without idling, so they keep the CPU
busy at the same times and finish at the same time. -/

namespace OsLab.Sched

variable {n : Nat} {pol pol' : Policy}

namespace SchedulerState

def busyUnits (s : SchedulerState pol n) : Set Int :=
  {u | ∃ d ∈ s.dispatches, d.time ≤ u ∧ u < d.stop}

def lastFinish (s : SchedulerState pol n) : WithBot Int :=
  (Finset.univ.image fun p => (s.processes p).finishTime).max

theorem busyUnits_eq (s : SchedulerState pol n) : s.busyUnits = busy s.log := by
  ext u
  simp [busyUnits, busy, log, Dispatch.segment, Segment.stop, Dispatch.stop]

variable {w : Workload n} {s : SchedulerState pol n} {s' : SchedulerState pol' n}

section Ended

variable (h : Coherent w s) (hend : s.loopBody = none)
include h hend

theorem Coherent.logged (p : Fin n) : ∃ d ∈ s.log, d.process = p :=
  (h.cpu.finished_done p (h.mem_completed hend p)).2

theorem Coherent.finishTime_le (p : Fin n) : (s.processes p).finishTime ≤ frontier s.log := by
  obtain ⟨d, hd, hfinish⟩ := h.last_of_ended hend p
  rw [hfinish]
  have hmem := mem_dispatchesOf.mp (List.mem_of_getLast? hd)
  exact h.cpu.timeline.stop_le_frontier d.segment (List.mem_map_of_mem hmem.1)

theorem Coherent.exists_finishTime (hne : s.dispatches ≠ []) :
    ∃ p, frontier s.log ≤ (s.processes p).finishTime := by
  obtain ⟨d, hd⟩ := Option.ne_none_iff_exists'.mp (mt List.getLast?_eq_none_iff.mp hne)
  have hmem : d ∈ s.dispatchesOf d.process := mem_dispatchesOf.mpr ⟨List.mem_of_getLast? hd, rfl⟩
  obtain ⟨d', hd', hfinish⟩ := h.last_of_ended hend d.process
  refine ⟨d.process, ?_⟩
  have hfrontier : frontier s.log = d.stop := by simp [frontier, log, hd]
  rw [hfinish, hfrontier]
  exact h.stop_le_last hd' hmem

theorem Coherent.lastFinish_eq [NeZero n] : s.lastFinish = frontier s.log := by
  have hne : s.dispatches ≠ [] := by
    obtain ⟨_, hseg, _⟩ := h.logged hend 0
    obtain ⟨d, hd, rfl⟩ := List.mem_map.mp hseg
    exact List.ne_nil_of_mem hd
  refine le_antisymm (Finset.max_le fun t ht => ?_) ?_
  · obtain ⟨p, _, rfl⟩ := Finset.mem_image.mp ht
    exact WithBot.coe_le_coe.mpr (h.finishTime_le hend p)
  · obtain ⟨p, hp⟩ := h.exists_finishTime hend hne
    exact (WithBot.coe_le_coe.mpr hp).trans
      (Finset.le_max (Finset.mem_image_of_mem _ (Finset.mem_univ p)))

end Ended

theorem Coherent.busyUnits_unique (hw : w.Nonneg) (h : Coherent w s) (h' : Coherent w s')
    (hend : s.loopBody = none) (hend' : s'.loopBody = none) : s.busyUnits = s'.busyUnits := by
  rw [busyUnits_eq, busyUnits_eq]
  exact h.cpu.timeline.busy_unique hw.arrival h'.cpu.timeline (h.served_of_ended hend)
    (h'.served_of_ended hend')

theorem Coherent.lastFinish_unique (hw : w.Nonneg) (h : Coherent w s) (h' : Coherent w s')
    (hend : s.loopBody = none) (hend' : s'.loopBody = none) : s.lastFinish = s'.lastFinish := by
  rcases Nat.eq_zero_or_pos n with rfl | hn
  · simp [lastFinish]
  · have : NeZero n := ⟨hn.ne'⟩
    rw [h.lastFinish_eq hend, h'.lastFinish_eq hend']
    exact congrArg _ (h.cpu.timeline.frontier_unique hw.arrival h'.cpu.timeline
      (h.served_of_ended hend) (h'.served_of_ended hend') (h.logged hend) (h'.logged hend'))

theorem simulateScheduler_ended {fuel : Nat} (hw : w.Nonneg) (hpol : pol.Valid)
    (hboost : pol.boostPeriod ≤ 0) (hsim : simulateScheduler pol w fuel = some s) :
    ∃ t : SchedulerState pol n, Coherent w t ∧ t.loopBody = none ∧
      s.busyUnits = t.busyUnits ∧ s.lastFinish = t.lastFinish := by
  obtain ⟨t, hreach, hend, rfl⟩ := simulateScheduler_eq_some hsim
  have h := Reaches.coherent hw hpol hboost hreach
  refine ⟨t, h, hend, ?_, ?_⟩ <;> rw [h.finish_eq hend] <;> rfl

end SchedulerState

open SchedulerState

/-- The busy time units and the end of a run depend on the workload only, not on the policy. -/
theorem busyUnits_lastFinish_unique {w : Workload n} (hw : w.Nonneg) :
    ∃ (units : Set Int) (last : WithBot Int), ∀ pol : Policy, pol.Valid → pol.boostPeriod ≤ 0 →
      (∃ fuel s, simulateScheduler pol w fuel = some s) ∧
        ∀ fuel s, simulateScheduler pol w fuel = some s →
          s.busyUnits = units ∧ s.lastFinish = last := by
  obtain ⟨_, s₀, hsim₀⟩ :=
    simulateScheduler_returns hw (show Policy.Valid .fcfs from trivial) (by decide)
  obtain ⟨t₀, h₀, hend₀, hbusy₀, hlast₀⟩ :=
    simulateScheduler_ended hw (show Policy.Valid .fcfs from trivial) (by decide) hsim₀
  refine ⟨s₀.busyUnits, s₀.lastFinish, fun pol hpol hboost =>
    ⟨simulateScheduler_returns hw hpol hboost, ?_⟩⟩
  intro fuel s hsim
  obtain ⟨t, h, hend, hbusy, hlast⟩ := simulateScheduler_ended hw hpol hboost hsim
  rw [hbusy, hlast, hbusy₀, hlast₀]
  exact ⟨h.busyUnits_unique hw h₀ hend hend₀, h.lastFinish_unique hw h₀ hend hend₀⟩

theorem busyUnits_lastFinish_unique_sample :
    ∃ (units : Set Int) (last : WithBot Int), ∀ pol : Policy, pol.Valid → pol.boostPeriod ≤ 0 →
      (∃ fuel s, simulateScheduler pol sampleWorkload fuel = some s) ∧
        ∀ fuel s, simulateScheduler pol sampleWorkload fuel = some s →
          s.busyUnits = units ∧ s.lastFinish = last :=
  busyUnits_lastFinish_unique sampleWorkload_nonneg

end OsLab.Sched
