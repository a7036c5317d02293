import OsLab.Sched.Runs

/-! CPU-time accounting. The run time of a segment is charged when it starts and the finish time
is stamped then as well; at the end of a run both agree with the segments that were served. -/

namespace OsLab.Sched

variable {n : Nat} {pol : Policy}

/-- The segments follow one another, no process starts before its arrival or gets more or less
than its burst, and the recorded times are those of its first and last segment. -/
structure Accounted (w : Workload n) (s : SchedulerState pol n) : Prop where
  consecutive : s.dispatches.Pairwise fun d d' => d.stop ≤ d'.time
  runTime_nonneg : ∀ d ∈ s.dispatches, 0 ≤ d.runTime
  arrived : ∀ d ∈ s.dispatches, w.arrivalTime d.process ≤ d.time
  served : ∀ p, ((s.dispatchesOf p).map Dispatch.runTime).sum = w.burstTime p
  remainingTime : ∀ p, (s.processes p).remainingTime = 0
  startTime : ∀ p, ∃ d, (s.dispatchesOf p).head? = some d ∧ (s.processes p).startTime = d.time
  finishTime : ∀ p, ∃ d, (s.dispatchesOf p).getLast? = some d ∧ (s.processes p).finishTime = d.stop
  turnaround : ∀ p, w.arrivalTime p + w.burstTime p ≤ (s.processes p).finishTime
  waitingTime : ∀ p, 0 ≤ (s.processes p).waitingTime

namespace SchedulerState

variable {w : Workload n} {s : SchedulerState pol n} {p : Fin n}

theorem served_log (s : SchedulerState pol n) (p : Fin n) :
    served s.log p = ((s.dispatchesOf p).map Dispatch.runTime).sum := by
  unfold log dispatchesOf
  induction s.dispatches with
  | nil => rfl
  | cons d l ih =>
    have hcons : served ((d :: l).map Dispatch.segment) p =
        (if d.process = p then d.runTime else 0) + served (l.map Dispatch.segment) p := by
      simp [served, Dispatch.segment]
    rw [hcons, ih, List.filter_cons]
    by_cases hp : d.process = p <;> simp [hp]

theorem mem_dispatchesOf {d : Dispatch n} :
    d ∈ s.dispatchesOf p ↔ d ∈ s.dispatches ∧ d.process = p := by
  simp [dispatchesOf]

theorem Coherent.consecutive (h : Coherent w s) :
    s.dispatches.Pairwise fun d d' => d.stop ≤ d'.time :=
  List.pairwise_map.mp h.cpu.timeline.pairwise

theorem Coherent.runTime_nonneg (h : Coherent w s) : ∀ d ∈ s.dispatches, 0 ≤ d.runTime :=
  fun d hd => h.cpu.timeline.length_nonneg d.segment (List.mem_map_of_mem hd)

theorem Coherent.arrived (h : Coherent w s) :
    ∀ d ∈ s.dispatches, w.arrivalTime d.process ≤ d.time :=
  fun d hd => h.cpu.timeline.arrival_le d.segment (List.mem_map_of_mem hd)

theorem Coherent.stop_le_last (h : Coherent w s) {d d' : Dispatch n}
    (hlast : (s.dispatchesOf p).getLast? = some d') (hd : d ∈ s.dispatchesOf p) :
    d.stop ≤ d'.stop := by
  obtain ⟨l, hl⟩ := List.getLast?_eq_some_iff.mp hlast
  have hpairwise : (s.dispatchesOf p).Pairwise fun d d' => d.stop ≤ d'.time :=
    h.consecutive.sublist List.filter_sublist
  rw [hl] at hd hpairwise
  rcases List.mem_append.mp hd with hd | hd
  · have hle := (List.pairwise_append.mp hpairwise).2.2 d hd d' (List.mem_singleton_self d')
    have hmem : d' ∈ s.dispatchesOf p := hl ▸ by simp
    have := h.runTime_nonneg d' (mem_dispatchesOf.mp hmem).1
    unfold Dispatch.stop at *
    omega
  · rw [List.mem_singleton.mp hd]

theorem Coherent.turnaround (h : Coherent w s) {d : Dispatch n}
    (hlast : (s.dispatchesOf p).getLast? = some d) (hserved : served s.log p = w.burstTime p) :
    w.arrivalTime p + w.burstTime p ≤ d.stop := by
  have htimeline := h.cpu.timeline
  have hmem := mem_dispatchesOf.mp (List.mem_of_getLast? hlast)
  have hall : servedBefore s.log p d.stop = served s.log p := by
    refine servedBefore_eq_served htimeline.length_nonneg fun e he hep => ?_
    obtain ⟨d', hd', rfl⟩ := List.mem_map.mp he
    exact h.stop_le_last hlast (mem_dispatchesOf.mpr ⟨hd', hep⟩)
  have helapsed := htimeline.servedBefore_le_elapsed p d.stop
  have harrived := h.arrived d hmem.1
  have hrun := h.runTime_nonneg d hmem.1
  rw [hmem.2] at harrived
  simp only [SchedulerState.cpu, view] at helapsed
  unfold Dispatch.stop at *
  omega

theorem Coherent.dispatched_of_ended (h : Coherent w s) (hend : s.loopBody = none) (p : Fin n) :
    s.dispatchesOf p ≠ [] := by
  obtain ⟨_, hseg, hp⟩ := (h.cpu.finished_done p (h.mem_completed hend p)).2
  obtain ⟨d, hd, rfl⟩ := List.mem_map.mp hseg
  exact List.ne_nil_of_mem (mem_dispatchesOf.mpr ⟨hd, hp⟩)

theorem Coherent.last_of_ended (h : Coherent w s) (hend : s.loopBody = none) (p : Fin n) :
    ∃ d, (s.dispatchesOf p).getLast? = some d ∧ (s.processes p).finishTime = d.stop := by
  obtain ⟨d, hd⟩ := Option.ne_none_iff_exists'.mp
    (mt List.getLast?_eq_none_iff.mp (h.dispatched_of_ended hend p))
  refine ⟨d, hd, ?_⟩
  rw [(h.recorded p).finishTime, if_pos (h.remainingTime_of_ended hend p), hd]
  rfl

theorem Coherent.accounted (h : Coherent w s) (hend : s.loopBody = none) :
    Accounted w s.finish := by
  have hserved := h.served_of_ended hend
  have hlast := h.last_of_ended hend
  have hturnaround : ∀ p, w.arrivalTime p + w.burstTime p ≤ (s.processes p).finishTime := fun p => by
    obtain ⟨d, hd, hfinish⟩ := hlast p
    exact hfinish ▸ h.turnaround hd (hserved p)
  rw [h.finish_eq hend]
  refine {
    consecutive := h.consecutive, runTime_nonneg := h.runTime_nonneg, arrived := h.arrived,
    served := fun p => (served_log s p).symm.trans (hserved p)
    remainingTime := h.remainingTime_of_ended hend
    startTime := fun p => ?_, finishTime := hlast, turnaround := hturnaround,
    waitingTime := fun p => ?_ }
  · obtain ⟨d, hd⟩ := Option.ne_none_iff_exists'.mp
      (mt List.head?_eq_none_iff.mp (h.dispatched_of_ended hend p))
    refine ⟨d, hd, ?_⟩
    change (s.processes p).startTime = d.time
    rw [(h.recorded p).startTime, hd]
    rfl
  · have := hturnaround p
    simp only [calculateMetrics, (h.recorded p).arrivalTime, (h.recorded p).burstTime]
    omega

end SchedulerState

open SchedulerState

/-- Without boosting every policy serves every process exactly its burst, one process at a time. -/
theorem simulateScheduler_accounted {w : Workload n} (hw : w.Nonneg) (hpol : pol.Valid)
    (hboost : pol.boostPeriod ≤ 0) :
    (∃ fuel s, simulateScheduler pol w fuel = some s) ∧
      ∀ fuel s, simulateScheduler pol w fuel = some s → Accounted w s := by
  refine ⟨?_, fun fuel s hsim => ?_⟩
  · exact simulateScheduler_returns hw hpol hboost
  · obtain ⟨t, hreach, hend, rfl⟩ := simulateScheduler_eq_some hsim
    exact (Reaches.coherent hw hpol hboost hreach).accounted hend

theorem simulateScheduler_accounted_stcf :
    (∃ fuel s, simulateScheduler .stcf sampleWorkload fuel = some s) ∧
      ∀ fuel s, simulateScheduler .stcf sampleWorkload fuel = some s → Accounted sampleWorkload s :=
  simulateScheduler_accounted sampleWorkload_nonneg Policy.stcf_valid (by decide)

end OsLab.Sched
