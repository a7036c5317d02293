import OsLab.Sched.IntTimes
import OsLab.Schedsim.Ticking

/-! The two simulators under first come, first served: they agree exactly if the scans of the
tick-stepped one take the processes that arrive at the same time in the order of the input. -/

namespace OsLab.Schedsim

open Sched

variable {n : Nat}

theorem scheduleFcfs_returns {w : Workload n} (hburst : ∀ p, 1 ≤ w.burstTime p) :
    ∃ fuel s, scheduleFcfs w fuel = some s := by
  obtain ⟨fuel, s, hrun⟩ := ((Fcfs.ticking w).terminates_iff (Fcfs.views_start w)).mpr hburst
  exact ⟨fuel, s.state, by rw [scheduleFcfs, hrun, Option.map_some]⟩

structure FcfsAgree (w : Workload n) : Prop where
  returns : ∃ fuel s, scheduleFcfs w fuel = some s
  returns' : ∃ fuel s, simulateScheduler .fcfs w fuel = some s
  times : ∀ fuel fuel' s s', scheduleFcfs w fuel = some s →
    simulateScheduler .fcfs w fuel' = some s' → ∀ p,
      (s.processes p).startTime = (s'.processes p).startTime ∧
        (s.processes p).finishTime = (s'.processes p).finishTime

theorem servedInOrder_of_recurrence {w : Workload n} {s : Sched.SchedulerState .fcfs n}
    (h : QueueingRecurrence w s) :
    ServedInOrder w (fun p => (s.processes p).startTime) w.byArrival := ⟨h.first, h.next⟩

/-- No time that either simulator computes leaves the range of `int`. -/
structure FcfsFits (w : Workload n) : Prop where
  ticks : ∀ fuel s, scheduleFcfs w fuel = some s → ∀ p,
    FitsInt (s.processes p).startTime ∧ FitsInt (s.processes p).finishTime
  events : SchedulerState.RunTimesFit .fcfs w

theorem scheduleFcfs_fits {w : Workload n} (hw : w.Nonneg) (hburst : ∀ p, 1 ≤ w.burstTime p)
    (hfits : w.RunFits) {fuel : Nat} {s : SchedulerState n} (hrun : scheduleFcfs w fuel = some s)
    (p : Fin n) : FitsInt (s.processes p).startTime ∧ FitsInt (s.processes p).finishTime := by
  obtain ⟨_, _, _, hfinish⟩ := scheduleFcfs_served hw hburst hrun
  obtain ⟨a, hloop, rfl⟩ := Option.map_eq_some_iff.mp hrun
  obtain ⟨t, log, hviews, hinv, hall, -, hserved, -⟩ :=
    (Fcfs.ticking w).complete (by decide) hw.arrival hburst (Fcfs.views_start w) hloop
  have hfrontier : frontier log ≤ intMax :=
    hinv.cpu.timeline.frontier_le_bound hw.arrival (fun q => (hserved q).le) (by decide) hfits
  have hstart : 0 ≤ (a.state.processes p).startTime := by
    simpa only [hviews.start] using hinv.start_nonneg hw.arrival (hall p)
  have hstop : (a.state.processes p).finishTime ≤ frontier log := by
    simpa only [hviews.stop] using hinv.stop_le (hall p)
  have hlater := hfinish p
  have hpos := hw.burst p
  exact ⟨SchedulerState.fitsInt_of_nonneg hfrontier hstart (by omega),
    SchedulerState.fitsInt_of_nonneg hfrontier (by omega) hstop⟩

theorem fcfsFits_iff {w : Workload n} (hw : w.Nonneg) (hburst : ∀ p, 1 ≤ w.burstTime p) :
    FcfsFits w ↔ w.RunFits := by
  have hevents : SchedulerState.RunTimesFit .fcfs w ↔ w.RunFits :=
    SchedulerState.runTimesFit_iff hw Policy.fcfs_valid (by decide)
  exact ⟨fun h => hevents.mp h.events, fun hfits =>
    ⟨fun _ _ hrun => scheduleFcfs_fits hw hburst hfits hrun, hevents.mpr hfits⟩⟩

/-- The simulators agree, with times that are `int`s, exactly if the work can be done by then and the
scans take the processes that arrive at the same time in the order of the input. -/
theorem fcfs_agree_iff {w : Workload n} (harrival : ∀ p, 0 ≤ w.arrivalTime p)
    (hburst : ∀ p, 1 ≤ w.burstTime p) :
    (FcfsFits w ∧ FcfsAgree w) ↔ (w.RunFits ∧ ScansInOrder w) := by
  have hw : w.Nonneg := ⟨harrival, fun p => (hburst p).trans' Int.one_nonneg⟩
  refine and_congr (fcfsFits_iff hw hburst) ?_
  obtain ⟨fuel, s, hrun⟩ := scheduleFcfs_returns hburst
  obtain ⟨fuel', s', hsim⟩ := SchedulerState.simulateScheduler_returns hw Policy.fcfs_valid (by decide)
  constructor
  · intro h
    obtain ⟨t, hall, hserved, _⟩ := scheduleFcfs_served hw hburst hrun
    have hserved' := servedInOrder_of_recurrence (simulateScheduler_recurrence hw hsim)
    have hperm := takenBefore_perm w t
    rw [hall, List.append_nil] at hperm
    have hsame : ∀ p ∈ w.byArrival, (s.processes p).startTime = (s'.processes p).startTime :=
      fun p _ => (h.times _ _ _ _ hrun hsim p).1
    refine (scansInOrder_iff hw hall).mpr ?_
    refine List.Perm.eq_of_pairwise (fun a b _ _ hab hba => absurd hba hab.asymm)
      (hserved.pairwise hburst) ((hserved'.congr hsame).pairwise hburst) ?_
    exact hperm.trans w.byArrival_perm.symm
  · intro h
    refine ⟨⟨fuel, s, hrun⟩, ⟨fuel', s', hsim⟩, fun f f' a a' ha ha' p => ?_⟩
    obtain ⟨t, hall, hserved, hfinish⟩ := scheduleFcfs_served hw hburst ha
    have hrecurrence := simulateScheduler_recurrence hw ha'
    rw [(scansInOrder_iff hw hall).mp h] at hserved
    have hstart := hserved.unique (servedInOrder_of_recurrence hrecurrence) p
      (w.byArrival_perm.mem_iff.mpr (List.mem_finRange p))
    exact ⟨hstart, by rw [hfinish, hrecurrence.finish, hstart]⟩

theorem fcfs_agree_sample : FcfsFits sampleWorkload ∧ FcfsAgree sampleWorkload :=
  (fcfs_agree_iff (by decide) (by decide)).mpr
    ⟨by decide, scansInOrder_of_injective sampleWorkload_nonneg (by decide)⟩

def tiedWorkload : Workload 3 where
  pid := ![['A'], ['B'], ['C']]
  arrivalTime := ![0, 0, 0]
  burstTime := ![1, 1, 1]

/-- The scan takes `A`, then `C`, which has taken its place, and then `B`. -/
theorem tied_disagree : ¬ FcfsAgree tiedWorkload := by
  intro h
  have htick : (scheduleFcfs tiedWorkload 10).map (fun s => (s.processes 1).startTime) = some 2 := by
    decide +kernel
  have hevent : (simulateScheduler .fcfs tiedWorkload 10).map
      (fun s => (s.processes 1).startTime) = some 1 := by decide +kernel
  obtain ⟨s, hrun, hs⟩ := Option.map_eq_some_iff.mp htick
  obtain ⟨s', hsim, hs'⟩ := Option.map_eq_some_iff.mp hevent
  have hstart := (h.times _ _ _ _ hrun hsim 1).1
  exact absurd (hs.symm.trans (hstart.trans hs')) (by decide)

end OsLab.Schedsim
