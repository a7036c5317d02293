import OsLab.Sched.IntTimes

/-! Runs with priority boosts. As long as no boost interrupts a process that is not done, the
segments are disjoint and every process is complete; one that does makes the interrupted segment
overlap the next one. -/

namespace OsLab.Sched

variable {n : Nat} {pol : Policy} {w : Workload n}

open SchedulerState

theorem reachesVia_boostSafe_disjoint (hw : w.Nonneg) (hpol : pol.Valid) (hfits : w.Fits pol)
    {s : SchedulerState pol n} (h : Loop.ReachesVia loopBody BoostSafe (startState pol w) s) :
    TimesFit s ∧ DisjointSegments s :=
  ⟨ReachesVia.timesFit hw hpol hfits h, (ReachesVia.coherent hw hpol h).disjointSegments⟩

/-- The boost comes during the only segment of `A`, while `B` waits. -/
def crossedWorkload : Workload 2 where
  pid := ![['A'], ['B']]
  arrivalTime := ![1495, 1495]
  burstTime := ![8, 15]

theorem lateInput : BoostInput liftConfig crossedWorkload :=
  boostInput_of_levels (by decide) (by decide) (by decide) (by decide)

theorem crossedWorkload_fits : crossedWorkload.Fits liftPolicy := by decide +kernel

theorem late_waits :
    (Loop.advance loopBody 2 (startState liftPolicy crossedWorkload)).HandlesNext .priorityBoost ∧
      (1 : Fin 2) ∈ MLFQProcessQueue.level
        (Loop.advance loopBody 2 (startState liftPolicy crossedWorkload)).waiting 0 := by
  decide +kernel

theorem late_boostSafe :
    ∀ i < 4, (Loop.advance loopBody i (startState liftPolicy crossedWorkload)).BoostSafe := by
  decide +kernel

theorem reachesVia_boostSafe_disjoint_late :
    (∃ i < 4, (Loop.advance loopBody i (startState liftPolicy crossedWorkload)).HandlesNext
        .priorityBoost ∧
      (1 : Fin 2) ∈ MLFQProcessQueue.level
        (Loop.advance loopBody i (startState liftPolicy crossedWorkload)).waiting 0) ∧
      TimesFit (Loop.advance loopBody 4 (startState liftPolicy crossedWorkload)) ∧
      DisjointSegments (Loop.advance loopBody 4 (startState liftPolicy crossedWorkload)) :=
  ⟨⟨2, by decide, late_waits⟩,
    reachesVia_boostSafe_disjoint lateInput.nonneg liftPolicy_valid crossedWorkload_fits
      (Loop.reachesVia_advance late_boostSafe)⟩

theorem boostSafeRun_complete (hw : w.Nonneg) (hpol : pol.Valid) (hfits : w.Fits pol)
    (hsafe : BoostSafeRun pol w) :
    (∃ fuel s, simulateScheduler pol w fuel = some s) ∧
      ∀ fuel s, simulateScheduler pol w fuel = some s → TimesFit s ∧ ∀ p,
        (s.processes p).remainingTime = 0 ∧
        ((s.dispatchesOf p).map Dispatch.runTime).sum = w.burstTime p ∧
        w.arrivalTime p + w.burstTime p ≤ (s.processes p).finishTime := by
  refine ⟨simulateScheduler_isSome (terminates hw hpol hsafe), fun fuel s hsim => ?_⟩
  obtain ⟨t, hreach, hend, rfl⟩ := simulateScheduler_eq_some hsim
  have hvia := hreach.via hsafe
  have hc := ReachesVia.coherent hw hpol hvia
  have h := hc.accounted hend
  exact ⟨hc.finish_timesFit hend (ReachesVia.timesFit hw hpol hfits hvia),
    fun p => ⟨h.remainingTime p, h.served p, h.turnaround p⟩⟩

theorem late_over :
    ∀ e ∈ (Loop.advance loopBody 3 (startState liftPolicy crossedWorkload)).eventQueue.items,
      e.type ≠ .priorityBoost := by
  decide +kernel

theorem crossedWorkload_boostSafeRun : BoostSafeRun liftPolicy crossedWorkload := by
  intro s hs
  obtain ⟨i, hi, heq⟩ | hlate := hs.cases_advance 3
  · rw [heq]
    exact late_boostSafe i (hi.trans (by decide))
  · have hover := late_over
    generalize Loop.advance loopBody 3 (startState liftPolicy crossedWorkload) = t at hlate hover
    intro e q hq htype
    have hmem : e ∈ s.eventQueue.items := dequeueEvent_eq_some.mp hq ▸ List.mem_cons_self
    exact absurd htype (Reaches.boosts_over hlate hover e hmem)

theorem boostSafeRun_complete_late :
    (∃ fuel s, simulateScheduler liftPolicy crossedWorkload fuel = some s) ∧
      ∀ fuel s, simulateScheduler liftPolicy crossedWorkload fuel = some s → TimesFit s ∧ ∀ p,
        (s.processes p).remainingTime = 0 ∧
        ((s.dispatchesOf p).map Dispatch.runTime).sum = crossedWorkload.burstTime p ∧
        crossedWorkload.arrivalTime p + crossedWorkload.burstTime p ≤ (s.processes p).finishTime :=
  boostSafeRun_complete lateInput.nonneg liftPolicy_valid crossedWorkload_fits
    crossedWorkload_boostSafeRun

def boostedRun : Option (SchedulerState boostPolicy 1) :=
  simulateScheduler boostPolicy boostWorkload 10

theorem boostedRun_segments :
    (boostedRun.map fun s => s.dispatches.map fun d => (d.time, d.stop)) =
      some [(995, 1005), (1000, 1005), (1005, 1005)] := by decide +kernel

theorem boost_segments_overlap :
    BoostInput boostConfig boostWorkload ∧
      ∃ s, simulateScheduler boostPolicy boostWorkload 10 = some s ∧ ¬ DisjointSegments s := by
  refine ⟨boostInput, ?_⟩
  obtain ⟨s, hsim, hlist⟩ := Option.map_eq_some_iff.mp boostedRun_segments
  refine ⟨s, hsim, fun hdisjoint => ?_⟩
  have hpairs : (s.dispatches.map fun d => (d.time, d.stop)).Pairwise fun a b =>
      Disjoint (Set.Ico a.1 a.2) (Set.Ico b.1 b.2) := List.pairwise_map.mpr hdisjoint
  rw [hlist] at hpairs
  have hfirst := List.rel_of_pairwise_cons hpairs (List.mem_cons_self ..)
  have hmem : (1000 : Int) ∈ Set.Ico 995 1005 := by constructor <;> decide
  have hmem' : (1000 : Int) ∈ Set.Ico 1000 1005 := by constructor <;> decide
  exact Set.disjoint_left.mp hfirst hmem hmem'

/-- The end of the interrupted segment stamps the process 5 time units too early. -/
theorem boost_finish_too_early :
    BoostInput boostConfig boostWorkload ∧
      ∃ s, simulateScheduler boostPolicy boostWorkload 10 = some s ∧
        (s.processes 0).finishTime < boostWorkload.arrivalTime 0 + boostWorkload.burstTime 0 := by
  refine ⟨boostInput, ?_⟩
  have hfinish : (boostedRun.map fun s => (s.processes 0).finishTime) = some 1005 := by
    decide +kernel
  obtain ⟨s, hsim, hfinish⟩ := Option.map_eq_some_iff.mp hfinish
  refine ⟨s, hsim, ?_⟩
  rw [hfinish]
  decide

end OsLab.Sched
