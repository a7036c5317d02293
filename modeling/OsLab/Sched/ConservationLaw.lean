import OsLab.Foundation.Delay
import OsLab.Sched.MinimalWaiting

/-! What the policies share: a process waits exactly as long as the CPU serves others in the
meantime, and the delays weighted with the service add up to the same total. -/

namespace OsLab.Sched

variable {n : Nat} {pol : Policy} {w : Workload n}

/-- The delay of the segment's process, from its arrival to the middle of each time unit, doubled. -/
def Dispatch.delay (w : Workload n) (d : Dispatch n) : Int :=
  d.runTime * (2 * (d.time - w.arrivalTime d.process) + d.runTime)

namespace SchedulerState

/-- The time for which `p` has the CPU from `a` on and before `b`. -/
def servedBetween (s : SchedulerState pol n) (p : Fin n) (a b : Int) : Int :=
  servedBefore s.log p b - servedBefore s.log p a

def weightedWaiting (w : Workload n) (s : SchedulerState pol n) : Int :=
  ∑ p, w.burstTime p * (s.processes p).waitingTime

variable {s s' : SchedulerState pol n} {e : Event n} {q : EventQueue n} {p : Fin n}

theorem sum_delay_log (s : SchedulerState pol n) :
    (s.log.map (Segment.delay w.arrivalTime)).sum = (s.dispatches.map (Dispatch.delay w)).sum := by
  rw [log, List.map_map]
  rfl

theorem Reaches.kept (hw : w.Nonneg) (hpol : pol.Valid) (hboost : pol.boostPeriod ≤ 0)
    (h : Loop.Reaches loopBody (startState pol w) s) : s.cpu.Kept w.arrivalTime :=
  Cpu.kept_of_steps (ReachesVia.steps hw hpol (Reaches.via hboost h))

theorem Reaches.others_served (hw : w.Nonneg) (hpol : pol.Valid) (hboost : pol.boostPeriod ≤ 0)
    (h : Loop.Reaches loopBody (startState pol w) s) {d : Dispatch n} (hd : d ∈ s.dispatchesOf p)
    {b : Int} (harrival : w.arrivalTime p ≤ b) (hb : b ≤ d.stop) :
    ∑ r ∈ Finset.univ.erase p, s.servedBetween r (w.arrivalTime p) b =
      b - w.arrivalTime p - servedBefore s.log p b := by
  obtain ⟨hmem, rfl⟩ := mem_dispatchesOf.mp hd
  have hkept := Reaches.kept hw hpol hboost h
  exact (Reaches.coherent hw hpol hboost h).cpu.timeline.others_served harrival fun u hu hlt =>
    hkept.log d.segment (List.mem_map_of_mem hmem) u hu (hlt.trans_le hb)

section Ended

variable (h : Coherent w s) (hend : s.loopBody = none)
include h hend

theorem Coherent.servedBefore_finish (p : Fin n) :
    servedBefore s.log p (s.processes p).finishTime = w.burstTime p := by
  obtain ⟨d, hlast, hfinish⟩ := h.last_of_ended hend p
  rw [← h.served_of_ended hend p, hfinish]
  refine servedBefore_eq_served h.cpu.timeline.length_nonneg fun e he hep => ?_
  obtain ⟨d', hd', rfl⟩ := List.mem_map.mp he
  exact h.stop_le_last hlast (mem_dispatchesOf.mpr ⟨hd', hep⟩)

theorem Coherent.first_of_ended (p : Fin n) :
    ∃ d, (s.dispatchesOf p).head? = some d ∧ (s.processes p).startTime = d.time := by
  obtain ⟨d, hd⟩ := Option.ne_none_iff_exists'.mp
    (mt List.head?_eq_none_iff.mp (h.dispatched_of_ended hend p))
  refine ⟨d, hd, ?_⟩
  rw [(h.recorded p).startTime, hd]
  rfl

theorem Coherent.servedBefore_start (p : Fin n) :
    servedBefore s.log p (s.processes p).startTime = 0 := by
  obtain ⟨d, hfirst, hstart⟩ := h.first_of_ended hend p
  obtain ⟨l, hl⟩ := List.head?_eq_some_iff.mp hfirst
  rw [hstart]
  refine servedBefore_eq_zero fun e he hep => ?_
  obtain ⟨d', hd', rfl⟩ := List.mem_map.mp he
  have hmem : d' ∈ s.dispatchesOf p := mem_dispatchesOf.mpr ⟨hd', hep⟩
  have hpairwise : (s.dispatchesOf p).Pairwise fun d d' => d.stop ≤ d'.time :=
    h.consecutive.sublist List.filter_sublist
  rw [hl] at hmem hpairwise
  rcases List.mem_cons.mp hmem with rfl | hmem
  · exact le_rfl
  · have hle := List.rel_of_pairwise_cons hpairwise hmem
    have hd : d ∈ s.dispatches := (mem_dispatchesOf.mp (List.mem_of_mem_head? hfirst)).1
    have := h.runTime_nonneg d hd
    show d.time ≤ d'.time
    unfold Dispatch.stop at hle
    omega

theorem Coherent.responseTime_eq (p : Fin n) : (s.finish.processes p).responseTime =
    (s.processes p).startTime - w.arrivalTime p := by
  rw [h.finish_eq hend]
  simp only [calculateMetrics, (h.recorded p).arrivalTime]

end Ended

theorem Round.dispatched_nodup (hnon : pol.Nonpreemptive) (hc : Coherent w s)
    (hq : s.eventQueue.items = e :: q.items) (hround : Round s e q s') (h : s.dispatched.Nodup) :
    s'.dispatched.Nodup := by
  have hsnoc : ∀ p, (∀ d ∈ s.log, d.process ≠ p) → (s.dispatched ++ [p]).Nodup := fun p hp =>
    List.nodup_append.mpr ⟨h, List.nodup_singleton p, fun a ha b hb => by
      obtain rfl := List.mem_singleton.mp hb
      obtain ⟨d, hd, rfl⟩ := mem_dispatched_iff.mp ha
      exact hp d hd⟩
  cases hround with
  | start p he hrun =>
    rw [dispatch_dispatched]
    have hpending : p ∈ (Sched.arrivals s.eventQueue.items : Multiset (Fin n)) := by
      rw [hq, arrivals_cons_arrival he]
      exact Multiset.mem_coe.mpr List.mem_cons_self
    exact hsnoc p (hc.cpu.pending_fresh p hpending).2
  | wait p r he hrun hle => exact h
  | preempt p r he hrun hstcf hlt => cases pol <;> simp_all [Policy.isStcf, Policy.Nonpreemptive]
  | complete p he hrun hrem =>
    obtain ⟨_, heq⟩ | ⟨r, waiting, _, hmem, heq⟩ :=
      dispatchNext_cases { s.popped e q with running := none } pol.sortByBurstTime
    · rw [heq]
      exact h
    · rw [heq, dispatch_dispatched]
      have hwaits : r ∈ pol.members s.waiting := by
        rw [show pol.members s.waiting = _ from hmem]
        exact List.mem_cons_self
      exact hsnoc r (hc.fresh hnon r hwaits)
  | expire p he hrun hrem =>
    have hzero := hc.whole hnon p hrun
    omega

theorem Reaches.dispatched_nodup (hw : w.Nonneg) (hpol : pol.Valid) (hboost : pol.boostPeriod ≤ 0)
    (hnon : pol.Nonpreemptive) (h : Loop.Reaches loopBody (startState pol w) s) :
    s.dispatched.Nodup := by
  refine Reaches.induction hw hpol hboost (fun s => s.dispatched.Nodup) ?_
    (fun s e q s' hc _ hq hround ih => hround.dispatched_nodup hnon hc hq ih) h
  rw [dispatched, (startState_starting hw pol).dispatches]
  exact List.nodup_nil

theorem Coherent.own_of_nodup (h : Coherent w s) (hend : s.loopBody = none)
    (hnodup : s.dispatched.Nodup) (p : Fin n) :
    own s.log p = [⟨p, (s.processes p).startTime, w.burstTime p⟩] ∧
      (s.processes p).finishTime = (s.processes p).startTime + w.burstTime p := by
  have hone : ∃ d, s.dispatchesOf p = [d] := by
    rw [← List.length_eq_one_iff]
    have hcount : (s.dispatchesOf p).length = s.dispatched.count p := by
      rw [dispatched, List.count, List.countP_map, List.countP_eq_length_filter]
      rfl
    have hpos := List.length_pos_iff.mpr (h.dispatched_of_ended hend p)
    have hle := List.nodup_iff_count_le_one.mp hnodup p
    omega
  obtain ⟨d, hd⟩ := hone
  have hprocess : d.process = p := (mem_dispatchesOf.mp (hd ▸ List.mem_singleton_self d)).2
  obtain ⟨d', hfirst, hstart⟩ := h.first_of_ended hend p
  obtain ⟨d'', hlast, hfinish⟩ := h.last_of_ended hend p
  rw [hd] at hfirst hlast
  obtain rfl : d = d' := Option.some.inj hfirst
  obtain rfl : d = d'' := Option.some.inj hlast
  have hserved := h.served_of_ended hend p
  rw [served_log, hd, List.map_singleton, List.sum_singleton] at hserved
  refine ⟨?_, by rw [hfinish, hstart, Dispatch.stop, hserved]⟩
  have hown : own s.log p = (s.dispatchesOf p).map Dispatch.segment := by
    rw [own, log, List.filter_map]
    rfl
  rw [hown, hd, List.map_singleton, Dispatch.segment, hprocess, hstart, hserved]

end SchedulerState

open SchedulerState

/-- Without boosting a process waits, and first waits for its response, exactly as long as the CPU
serves others in the meantime. -/
theorem simulateScheduler_waiting {w : Workload n} (hw : w.Nonneg) (hpol : pol.Valid)
    (hboost : pol.boostPeriod ≤ 0) :
    (∃ fuel s, simulateScheduler pol w fuel = some s) ∧
      ∀ fuel s, simulateScheduler pol w fuel = some s → ∀ p,
        (s.processes p).waitingTime = ∑ r ∈ Finset.univ.erase p,
          s.servedBetween r (w.arrivalTime p) (s.processes p).finishTime ∧
        (s.processes p).responseTime = ∑ r ∈ Finset.univ.erase p,
          s.servedBetween r (w.arrivalTime p) (s.processes p).startTime := by
  refine ⟨simulateScheduler_returns hw hpol hboost, fun fuel s hsim p => ?_⟩
  obtain ⟨t, hreach, hend, rfl⟩ := simulateScheduler_eq_some hsim
  have hc := Reaches.coherent hw hpol hboost hreach
  rw [hc.waitingTime_eq hend, hc.responseTime_eq hend, hc.finish_eq hend]
  constructor
  · obtain ⟨d, hlast, hfinish⟩ := hc.last_of_ended hend p
    have hd := List.mem_of_getLast? hlast
    have hle := hc.turnaround hlast (hc.served_of_ended hend p)
    have hothers := Reaches.others_served hw hpol hboost hreach hd (b := d.stop)
      ((le_add_of_nonneg_right (hw.burst p)).trans hle) le_rfl
    rw [← hfinish, hc.servedBefore_finish hend] at hothers
    exact hothers.symm
  · obtain ⟨d, hfirst, hstart⟩ := hc.first_of_ended hend p
    have hd := List.mem_of_mem_head? hfirst
    obtain ⟨hmem, hp⟩ := mem_dispatchesOf.mp hd
    have harrived := hc.arrived d hmem
    rw [hp] at harrived
    have hothers := Reaches.others_served hw hpol hboost hreach hd (b := d.time) harrived
      (le_add_of_nonneg_right (hc.runTime_nonneg d hmem))
    rw [← hstart, hc.servedBefore_start hend, sub_zero] at hothers
    exact hothers.symm

theorem simulateScheduler_waiting_sample :
    (∃ fuel s, simulateScheduler .stcf sampleWorkload fuel = some s) ∧
      ∀ fuel s, simulateScheduler .stcf sampleWorkload fuel = some s → ∀ p,
        (s.processes p).waitingTime = ∑ r ∈ Finset.univ.erase p,
          s.servedBetween r (sampleWorkload.arrivalTime p) (s.processes p).finishTime ∧
        (s.processes p).responseTime = ∑ r ∈ Finset.univ.erase p,
          s.servedBetween r (sampleWorkload.arrivalTime p) (s.processes p).startTime :=
  simulateScheduler_waiting sampleWorkload_nonneg trivial (by decide)

/-- The delays weighted with the service add up to the same total under every policy without boosts,
so that whoever serves each process in one piece makes the same weighted waits. -/
theorem simulateScheduler_conserves {w : Workload n} (hw : w.Nonneg) :
    ∃ total : Int, ∀ pol : Policy, pol.Valid → pol.boostPeriod ≤ 0 →
      (∃ fuel s, simulateScheduler pol w fuel = some s) ∧
        ∀ fuel s, simulateScheduler pol w fuel = some s →
          (s.dispatches.map (Dispatch.delay w)).sum = total ∧
          (pol.Nonpreemptive →
            2 * s.weightedWaiting w + ∑ p, w.burstTime p * w.burstTime p = total) := by
  obtain ⟨_, s₀, hsim₀⟩ := simulateScheduler_returns hw Policy.fcfs_valid (by decide)
  obtain ⟨t₀, hreach₀, hend₀, -⟩ := simulateScheduler_eq_some hsim₀
  have h₀ := Reaches.coherent hw Policy.fcfs_valid (by decide) hreach₀
  refine ⟨(t₀.dispatches.map (Dispatch.delay w)).sum, fun pol hpol hboost =>
    ⟨simulateScheduler_returns hw hpol hboost, fun fuel s hsim => ?_⟩⟩
  obtain ⟨t, hreach, hend, rfl⟩ := simulateScheduler_eq_some hsim
  have hc := Reaches.coherent hw hpol hboost hreach
  have hsum : (t.dispatches.map (Dispatch.delay w)).sum =
      (t₀.dispatches.map (Dispatch.delay w)).sum := by
    rw [← sum_delay_log, ← sum_delay_log]
    exact hc.cpu.timeline.sum_delay_unique hw.arrival h₀.cpu.timeline (hc.served_of_ended hend)
      (h₀.served_of_ended hend₀)
  refine ⟨?_, fun hnon => ?_⟩
  · rw [← hsum, hc.finish_eq hend]
    rfl
  · have hone := hc.own_of_nodup hend (Reaches.dispatched_nodup hw hpol hboost hnon hreach)
    rw [← hsum, ← sum_delay_log, sum_delay_of_own fun p => (hone p).1, weightedWaiting]
    congr 2
    refine Finset.sum_congr rfl fun p _ => ?_
    rw [hc.waitingTime_eq hend, (hone p).2]
    ring

theorem simulateScheduler_conserves_sample :
    ∃ total : Int, ∀ pol : Policy, pol.Valid → pol.boostPeriod ≤ 0 →
      (∃ fuel s, simulateScheduler pol sampleWorkload fuel = some s) ∧
        ∀ fuel s, simulateScheduler pol sampleWorkload fuel = some s →
          (s.dispatches.map (Dispatch.delay sampleWorkload)).sum = total ∧
          (pol.Nonpreemptive → 2 * s.weightedWaiting sampleWorkload +
            ∑ p, sampleWorkload.burstTime p * sampleWorkload.burstTime p = total) :=
  simulateScheduler_conserves sampleWorkload_nonneg

end OsLab.Sched
