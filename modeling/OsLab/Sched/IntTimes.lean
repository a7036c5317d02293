import OsLab.Foundation.Makespan
import OsLab.Sched.BusyTimes
import OsLab.Sched.Horizon

/-! The times of a run as the `int`s of the program. The model computes with exact integers, and the
program does so as well until a time leaves the range of `int`. Without boosts that happens exactly
if the work is not done by then; with boosts, their times are bounded by the horizon. -/

namespace OsLab.Sched

variable {n : Nat} {pol : Policy} {w : Workload n}

/-- From the arrival of each process on there is time, within `int`, for all that arrives then or
later. -/
def Workload.RunFits (w : Workload n) : Prop :=
  ∀ p, w.arrivalTime p + ∑ q with w.arrivalTime p ≤ w.arrivalTime q, w.burstTime q ≤ intMax

instance (w : Workload n) : Decidable w.RunFits :=
  inferInstanceAs (Decidable (∀ p, w.arrivalTime p + _ ≤ intMax))

theorem Workload.RunFits.add_le (h : w.RunFits) (hw : w.Nonneg) (p : Fin n) :
    w.arrivalTime p + w.burstTime p ≤ intMax := by
  have hmem : p ∈ Finset.univ.filter fun q => w.arrivalTime p ≤ w.arrivalTime q :=
    Finset.mem_filter.mpr ⟨Finset.mem_univ p, le_rfl⟩
  have hburst := Finset.single_le_sum (fun q _ => hw.burst q) hmem
  exact (add_le_add_right hburst _).trans (h p)

/-- The last time that is computed is an `int`. -/
def Workload.Fits (w : Workload n) (pol : Policy) : Prop :=
  w.horizon + (if 0 < pol.boostPeriod then 1000 + pol.boostPeriod else 0) ≤ intMax

instance (w : Workload n) (pol : Policy) : Decidable (w.Fits pol) :=
  inferInstanceAs (Decidable (w.horizon + _ ≤ intMax))

theorem Workload.Fits.horizon_le (h : w.Fits pol) : w.horizon ≤ intMax := by
  unfold Workload.Fits at h
  split_ifs at h <;> omega

theorem Workload.Fits.runFits (h : w.Fits pol) (hw : w.Nonneg) : w.RunFits := by
  intro p
  have hsub : ∑ q with w.arrivalTime p ≤ w.arrivalTime q, w.burstTime q ≤ ∑ q, w.burstTime q :=
    Finset.sum_le_sum_of_subset_of_nonneg (Finset.filter_subset _ _) fun q _ _ => hw.burst q
  exact (add_le_add (w.arrivalTime_le_latest p) hsub).trans h.horizon_le

namespace SchedulerState

variable {s : SchedulerState pol n}

structure TimesFit (s : SchedulerState pol n) : Prop where
  event : ∀ e ∈ s.eventQueue.items, FitsInt e.time
  segment : ∀ d ∈ s.dispatches, FitsInt d.time ∧ FitsInt d.stop
  remainingTime : ∀ p, FitsInt (s.processes p).remainingTime
  startTime : ∀ p, FitsInt (s.processes p).startTime
  finishTime : ∀ p, FitsInt (s.processes p).finishTime

/-- No time of the run leaves the range of `int`. -/
def RunTimesFit (pol : Policy) (w : Workload n) : Prop :=
  ∀ s, Loop.Reaches loopBody (startState pol w) s → TimesFit s

theorem fitsInt_of_nonneg {v bound : Int} (hbound : bound ≤ intMax) (hv : 0 ≤ v) (hle : v ≤ bound) :
    FitsInt v :=
  ⟨(show intMin ≤ 0 by decide).trans hv, hle.trans hbound⟩

section Coherent

variable (hw : w.Nonneg) (h : Coherent w s)
include hw h

omit hw in
theorem Coherent.served_le (p : Fin n) : served s.log p ≤ w.burstTime p := by
  have haccounted := h.cpu.accounted p
  have hleft := h.cpu.left_nonneg p
  simp only [SchedulerState.cpu, view] at haccounted hleft
  omega

theorem Coherent.frontier_fits (hfits : w.RunFits) : FitsInt (frontier s.log) :=
  fitsInt_of_nonneg le_rfl (h.cpu.timeline.frontier_nonneg hw.arrival)
    (h.cpu.timeline.frontier_le_bound hw.arrival h.served_le (by decide) hfits)

theorem Coherent.segment_fits (hfits : w.RunFits) {d : Dispatch n} (hd : d ∈ s.dispatches) :
    FitsInt d.time ∧ FitsInt d.stop := by
  have hfrontier := (h.frontier_fits hw hfits).2
  have harrived := (hw.arrival d.process).trans (h.arrived d hd)
  have hstop : d.time ≤ d.stop := le_add_of_nonneg_right (h.runTime_nonneg d hd)
  have hlast : d.stop ≤ frontier s.log :=
    h.cpu.timeline.stop_le_frontier d.segment (List.mem_map_of_mem hd)
  exact ⟨fitsInt_of_nonneg hfrontier harrived (hstop.trans hlast),
    fitsInt_of_nonneg hfrontier (harrived.trans hstop) hlast⟩

theorem Coherent.event_fits (hfits : w.RunFits) {e : Event n} (he : e ∈ s.eventQueue.items)
    (hboost : e.type ≠ .priorityBoost) : FitsInt e.time := by
  have hfrontier := h.frontier_fits hw hfits
  have hend : e.endsSegment = true → FitsInt e.time := by
    intro hends
    have hmem : e ∈ segmentEnds s.eventQueue.items := List.mem_filter.mpr ⟨he, hends⟩
    rw [h.ends] at hmem
    obtain ⟨p, _, rfl⟩ := List.mem_map.mp hmem
    exact hfrontier
  cases htype : e.type with
  | arrival p =>
    rw [h.arrival e he p htype]
    exact fitsInt_of_nonneg (hfits.add_le hw p) (hw.arrival p)
      (le_add_of_nonneg_right (hw.burst p))
  | priorityBoost => exact absurd htype hboost
  | _ => exact hend (by rw [Event.endsSegment, htype])

theorem Coherent.record_fits (hfits : w.RunFits) (p : Fin n) :
    FitsInt (s.processes p).remainingTime ∧ FitsInt (s.processes p).startTime ∧
      FitsInt (s.processes p).finishTime := by
  have hunknown : FitsInt unknownTime := by decide
  have hsegment : ∀ d ∈ s.dispatchesOf p, FitsInt d.time ∧ FitsInt d.stop :=
    fun d hd => h.segment_fits hw hfits (mem_dispatchesOf.mp hd).1
  refine ⟨?_, ?_, ?_⟩
  · have hleft := h.cpu.left_nonneg p
    have haccounted := h.cpu.accounted p
    have hserved := h.cpu.timeline.served_nonneg p
    have hsum := hfits.add_le hw p
    have harrival := hw.arrival p
    simp only [SchedulerState.cpu, view] at hleft haccounted hserved
    exact fitsInt_of_nonneg hsum hleft (by omega)
  · rw [(h.recorded p).startTime]
    cases hhead : (s.dispatchesOf p).head? with
    | none => exact hunknown
    | some d => exact (hsegment d (List.mem_of_mem_head? hhead)).1
  · rw [(h.recorded p).finishTime]
    split_ifs
    · cases hlast : (s.dispatchesOf p).getLast? with
      | none => exact hunknown
      | some d => exact (hsegment d (List.mem_of_getLast? hlast)).2
    · exact hunknown

theorem Coherent.timesFit (hfits : w.RunFits)
    (hboosts : ∀ e ∈ s.eventQueue.items, e.type = .priorityBoost → FitsInt e.time) :
    TimesFit s where
  event e he := by
    by_cases htype : e.type = .priorityBoost
    · exact hboosts e he htype
    · exact h.event_fits hw hfits he htype
  segment _ hd := h.segment_fits hw hfits hd
  remainingTime p := (h.record_fits hw hfits p).1
  startTime p := (h.record_fits hw hfits p).2.1
  finishTime p := (h.record_fits hw hfits p).2.2

omit hw in
theorem Coherent.runFits (hend : s.loopBody = none) (hfits : TimesFit s) : w.RunFits := by
  intro p
  obtain ⟨d, hd⟩ : ∃ d, s.dispatches.getLast? = some d := by
    obtain ⟨_, hmem, _⟩ := h.logged hend p
    obtain ⟨d, hd, _⟩ := List.mem_map.mp hmem
    exact Option.ne_none_iff_exists'.mp (mt List.getLast?_eq_none_iff.mp (List.ne_nil_of_mem hd))
  have hfrontier : frontier s.log = d.stop := by simp [frontier, log, hd]
  have hle := h.cpu.timeline.release_le_frontier (h.served_of_ended hend) (h.logged hend p)
  exact (hle.trans_eq hfrontier).trans (hfits.segment d (List.mem_of_getLast? hd)).2.2

omit hw in
theorem Coherent.finish_timesFit (hend : s.loopBody = none) (hfits : TimesFit s) :
    TimesFit s.finish := by
  rw [h.finish_eq hend]
  exact ⟨hfits.event, hfits.segment, hfits.remainingTime, hfits.startTime, hfits.finishTime⟩

end Coherent

theorem ReachesVia.timesFit (hw : w.Nonneg) (hpol : pol.Valid) (hfits : w.Fits pol)
    (h : Loop.ReachesVia loopBody BoostSafe (startState pol w) s) : TimesFit s := by
  refine (ReachesVia.coherent hw hpol h).timesFit hw (hfits.runFits hw) fun e he htype => ?_
  have hperiod : 0 < pol.boostPeriod := by
    by_contra hnone
    exact Reaches.boosts (not_lt.mp hnone) h.reaches e he htype
  have hwithin := (Reaches.funded hw hpol h.reaches).queued e he
  have hmax := hwithin.le_buffer hw
  rw [Workload.Fits, if_pos hperiod] at hfits
  exact fitsInt_of_nonneg (by omega) hwithin.1 hmax

/-- Without boosts, the times of a run are `int`s exactly if the work can be done by then. -/
theorem runTimesFit_iff (hw : w.Nonneg) (hpol : pol.Valid) (hboost : pol.boostPeriod ≤ 0) :
    RunTimesFit pol w ↔ w.RunFits := by
  constructor
  · intro h
    obtain ⟨fuel, s, hsim⟩ := simulateScheduler_returns hw hpol hboost
    obtain ⟨t, hreach, hend, -⟩ := simulateScheduler_eq_some hsim
    exact (Reaches.coherent hw hpol hboost hreach).runFits hend (h t hreach)
  · intro hfits s hreach
    exact (Reaches.coherent hw hpol hboost hreach).timesFit hw hfits fun e he htype =>
      absurd htype (Reaches.boosts hboost hreach e he)

end SchedulerState

end OsLab.Sched
