import OsLab.Foundation.BackToBack
import OsLab.Sched.BusyTimes
import OsLab.Sched.Sjf

/-! Jobs that arrive together under SJF and STCF. The dispatched, the waiting and the queued
processes form one line throughout a run, in the order of their bursts: every process is taken
from its front and served in one piece. So the processes wait no longer altogether than back to
back in any order or under any other policy. -/

namespace OsLab.Sched

variable {n : Nat} {pol : Policy} {w : Workload n} {a : Int}

namespace SchedulerState

def totalWaiting (s : SchedulerState pol n) : Int := ∑ p, (s.processes p).waitingTime

def line (s : SchedulerState pol n) : List (Fin n) :=
  s.dispatches.map Dispatch.process ++ pol.members s.waiting ++ arrivals s.eventQueue.items

/-- The line stays as it is, and every process that has been taken from its front runs to its
end. -/
structure InLine (w : Workload n) (l : List (Fin n)) (s : SchedulerState pol n) : Prop where
  line : s.line = l
  full : ∀ d ∈ s.dispatches, d.runTime = w.burstTime d.process
  whole : ∀ p, s.running = some p → (s.processes p).remainingTime = 0

section Round

variable {s s' : SchedulerState pol n} {e : Event n} {q : EventQueue n} {p : Fin n}
variable {l : List (Fin n)}

theorem valid_of_sort (hsort : pol.sortByBurstTime = true) : pol.Valid := by
  cases pol <;> simp_all [Policy.sortByBurstTime, Policy.Valid]

theorem Free.runTime_full {ready : Multiset (Fin n)} (h : Free w s ready)
    (hsort : pol.sortByBurstTime = true) (htogether : ∀ p, w.arrivalTime p = a) (hp : p ∈ ready)
    (hfresh : ∀ d ∈ s.dispatches, d.process ≠ p) :
    s.runTime p = w.burstTime p ∧ s.runTime p = (s.processes p).remainingTime := by
  have hrem : (s.processes p).remainingTime = w.burstTime p := by
    apply h.cpu.left_of_unserved
    intro d hd
    obtain ⟨d', hd', rfl⟩ := List.mem_map.mp hd
    exact hfresh d' hd'
  have harrived : a ≤ s.currentTime := by
    rw [← htogether p]
    exact h.cpu.arrived p (h.cpu.notMem_pending_of_ready hp)
  have hall : s.runTime p = (s.processes p).remainingTime := by
    cases pol with
    | sjf => rfl
    | stcf =>
      obtain hall | ⟨e, hpeek, hlt, _⟩ :=
        scheduleStcf_runTime s.eventQueue s.currentTime (s.processes p)
      · exact hall
      · obtain ⟨hmem, r, htype⟩ := peekNextArrival_mem hpeek
        have htime := (h.arrival e hmem r htype).trans (htogether r)
        omega
    | _ => simp [Policy.sortByBurstTime] at hsort
  exact ⟨hall.trans hrem, hall⟩

theorem InLine.dispatch (h : Free w s (p ::ₘ pol.members s.waiting))
    (hsort : pol.sortByBurstTime = true) (htogether : ∀ p, w.arrivalTime p = a) (arrange : Bool)
    (hline : s.dispatches.map Dispatch.process ++ p :: pol.members s.waiting ++
      arrivals s.eventQueue.items = l) (hnodup : l.Nodup)
    (hfull : ∀ d ∈ s.dispatches, d.runTime = w.burstTime d.process) :
    InLine w l (s.dispatch p arrange) := by
  have hmem : p ∈ p ::ₘ (pol.members s.waiting : Multiset (Fin n)) := Multiset.mem_cons_self p _
  have hfresh : ∀ d ∈ s.dispatches, d.process ≠ p := by
    rintro d hd rfl
    rw [← hline, List.append_assoc] at hnodup
    exact List.disjoint_of_nodup_append hnodup (List.mem_map_of_mem hd) (by simp)
  obtain ⟨hburst, hall⟩ := h.runTime_full hsort htogether hmem hfresh
  refine ⟨?_, fun d hd => ?_, fun r hr => ?_⟩
  · show (s.dispatch p arrange).dispatches.map Dispatch.process ++ pol.members s.waiting ++
      arrivals (s.dispatch p arrange).eventQueue.items = l
    rw [dispatch_arrivals, dispatch_dispatches, ← hline]
    simp
  · rw [dispatch_dispatches] at hd
    rcases List.mem_append.mp hd with hd | hd
    · exact hfull d hd
    · rw [List.mem_singleton.mp hd]
      exact hburst
  · obtain rfl := Option.some.inj hr
    have hleft := startSegment_remainingTime (h.scheduled (valid_of_sort hsort) hmem)
    rw [hall, sub_self] at hleft
    exact hleft

theorem InLine.dispatchNext (h : Free w s (pol.members s.waiting))
    (hsort : pol.sortByBurstTime = true) (htogether : ∀ p, w.arrivalTime p = a) (arrange : Bool)
    (hline : s.line = l) (hnodup : l.Nodup)
    (hfull : ∀ d ∈ s.dispatches, d.runTime = w.burstTime d.process) :
    InLine w l (s.dispatchNext arrange) := by
  obtain ⟨_, heq⟩ | ⟨p, waiting, _, hmem, heq⟩ := s.dispatchNext_cases arrange
  · rw [heq]
    exact ⟨hline, hfull, fun r hr => absurd hr.symm (Option.some_ne_none r)⟩
  · rw [heq]
    rw [hmem] at h
    refine InLine.dispatch (h.sameTimes (.refl _) s.running waiting) hsort htogether arrange ?_
      hnodup hfull
    rw [← hline, SchedulerState.line, hmem]

theorem InLine.enqueue (hc : Coherent w s) (hsort : pol.sortByBurstTime = true)
    (hline : s.dispatches.map Dispatch.process ++ pol.members s.waiting ++ p :: arrivals q.items = l)
    (hnodup : l.Nodup) (hsorted : l.Pairwise fun a b => w.burstTime a ≤ w.burstTime b) :
    pol.members (pol.enqueue s.processes s.waiting p).2 = pol.members s.waiting ++ [p] := by
  have hrem : ∀ r, (∀ d ∈ s.dispatches, d.process ≠ r) →
      (s.processes r).remainingTime = w.burstTime r := by
    intro r hr
    apply hc.cpu.left_of_unserved
    intro d hd
    obtain ⟨d', hd', rfl⟩ := List.mem_map.mp hd
    exact hr d' hd'
  have hfresh : ∀ r ∈ p :: pol.members s.waiting, ∀ d ∈ s.dispatches, d.process ≠ r := by
    rintro r hr d hd rfl
    rw [← hline, List.append_assoc] at hnodup
    refine List.disjoint_of_nodup_append hnodup (List.mem_map_of_mem hd) ?_
    rcases List.mem_cons.mp hr with hr | hr
    · simp [hr]
    · simp [hr]
  have hle : ∀ r ∈ pol.members s.waiting, w.burstTime r ≤ w.burstTime p := by
    intro r hr
    rw [← hline, List.append_assoc] at hsorted
    exact (List.pairwise_append.mp (List.pairwise_append.mp hsorted).2.1).2.2 r hr p
      List.mem_cons_self
  cases pol with
  | sjf =>
    refine insertBefore_eq_concat fun r hr => ?_
    simpa [(hc.recorded r).burstTime, (hc.recorded p).burstTime] using hle r hr
  | stcf =>
    refine insertBefore_eq_concat fun r hr => ?_
    have hr' := hrem r (hfresh r (List.mem_cons_of_mem p hr))
    have hp' := hrem p (hfresh p List.mem_cons_self)
    simpa [hr', hp'] using hle r hr
  | _ => simp [Policy.sortByBurstTime] at hsort

theorem InLine.round (hc : Coherent w s) (hsort : pol.sortByBurstTime = true)
    (htogether : ∀ p, w.arrivalTime p = a) (hnodup : l.Nodup)
    (hsorted : l.Pairwise fun a b => w.burstTime a ≤ w.burstTime b)
    (hq : s.eventQueue.items = e :: q.items) (h : InLine w l s) (hround : Round s e q s') :
    InLine w l s' := by
  have hline := h.line
  unfold SchedulerState.line at hline
  rw [hq] at hline
  cases hround with
  | start p he hrun =>
    rw [arrivals_cons_arrival he, hc.idle hrun] at hline
    refine InLine.dispatch (hc.free_arrival hq he hrun) hsort htogether _ ?_ hnodup h.full
    show s.dispatches.map Dispatch.process ++ p :: pol.members s.waiting ++ arrivals q.items = l
    rw [hc.idle hrun, ← hline]
    simp
  | wait p r he hrun hle =>
    rw [arrivals_cons_arrival he] at hline
    have hps := pol.enqueue_sameTimes s.processes s.waiting p
    refine ⟨?_, h.full, fun r' hr' => (hps.remainingTime r').trans (h.whole r' hr')⟩
    show s.dispatches.map Dispatch.process ++
      pol.members (pol.enqueue s.processes s.waiting p).2 ++ arrivals q.items = l
    rw [InLine.enqueue hc hsort hline hnodup hsorted, ← hline]
    simp
  | preempt p r he hrun hstcf hlt =>
    -- the running process has nothing left, so no arrival is shorter
    rw [h.whole r hrun] at hlt
    exact absurd hlt (not_lt.mpr (hc.cpu.left_nonneg p))
  | complete p he hrun hrem =>
    refine InLine.dispatchNext (hc.free_completion hq he).1 hsort htogether _ ?_ hnodup h.full
    have hsame := popped_arrivals hq (by rw [Event.arrival?, he])
    rw [← hq, ← hsame] at hline
    exact hline
  | expire p he hrun hrem => exact absurd (h.whole p hrun) hrem.ne'

theorem startArrivals_sorted (hsort : pol.sortByBurstTime = true)
    (htogether : ∀ p, w.arrivalTime p = a) :
    (arrivals (startState pol w).eventQueue.items).Pairwise fun p r =>
      w.burstTime p ≤ w.burstTime r := by
  refine (startState_arrivesFirst pol hsort).imp fun {p r} hfirst => ?_
  rcases hfirst with hlt | ⟨_, hle⟩
  · rw [htogether, htogether] at hlt
    exact absurd hlt (lt_irrefl a)
  · exact hle

theorem Reaches.inLine (hw : w.Nonneg) (hsort : pol.sortByBurstTime = true)
    (htogether : ∀ p, w.arrivalTime p = a) (h : Loop.Reaches loopBody (startState pol w) s) :
    InLine w (arrivals (startState pol w).eventQueue.items) s := by
  have hstart := startState_starting hw pol
  have hnodup : (arrivals (startState pol w).eventQueue.items).Nodup :=
    hstart.arrivals.nodup_iff.mpr (List.nodup_reverse.mpr (List.nodup_finRange n))
  have hsorted := startArrivals_sorted hsort htogether
  refine Reaches.induction hw (valid_of_sort hsort) (boostPeriod_of_sort hsort) (InLine w _) ?_
    (fun _ _ _ _ hc _ hq hround hs => hs.round hc hsort htogether hnodup hsorted hq hround) h
  refine ⟨?_, ?_, ?_⟩
  · simp [line, hstart.dispatches, hstart.waiting]
  · simp [hstart.dispatches]
  · simp [hstart.running]

end Round

section Ended

variable {s : SchedulerState pol n}

theorem Coherent.waitingTime_eq (hc : Coherent w s) (hend : s.loopBody = none) (p : Fin n) :
    (s.finish.processes p).waitingTime =
      (s.processes p).finishTime - w.arrivalTime p - w.burstTime p := by
  rw [hc.finish_eq hend]
  simp only [calculateMetrics, (hc.recorded p).arrivalTime, (hc.recorded p).burstTime]

theorem totalWaiting_eq_sum (s : SchedulerState pol n) :
    s.totalWaiting = ((List.finRange n).map fun p => (s.processes p).waitingTime).sum := by
  rw [totalWaiting, Fin.sum_univ_def]

theorem Coherent.pairMin_le_totalWaiting (hc : Coherent w s) (hend : s.loopBody = none)
    (htogether : ∀ p, w.arrivalTime p = a) :
    pairMin w.burstTime (List.finRange n) ≤ s.finish.totalWaiting := by
  have hstop : ∀ d ∈ s.log, d.stop ≤ (s.processes d.process).finishTime := by
    intro d hd
    obtain ⟨d', hd', rfl⟩ := List.mem_map.mp hd
    obtain ⟨dlast, hlast, hfinish⟩ := hc.last_of_ended hend d'.process
    show d'.stop ≤ (s.processes d'.process).finishTime
    rw [hfinish]
    exact hc.stop_le_last hlast (mem_dispatchesOf.mpr ⟨hd', rfl⟩)
  have hrelease : ∀ p, a ≤ (s.processes p).finishTime := by
    intro p
    obtain ⟨d, hd, hp⟩ := hc.logged hend p
    have harrived := hc.cpu.timeline.arrival_le d hd
    have hlength := hc.cpu.timeline.length_nonneg d hd
    have hle := hstop d hd
    rw [htogether] at harrived
    rw [hp] at hle
    unfold Segment.stop at hle
    omega
  have hmin := hc.cpu.timeline.pairMin_le (fun p => (htogether p).ge) (hc.served_of_ended hend)
    hrelease hstop (List.nodup_finRange n) fun p => List.mem_finRange p
  rw [totalWaiting_eq_sum]
  refine hmin.trans (le_of_eq (congrArg List.sum (List.map_congr_left fun p _ => ?_)))
  rw [hc.waitingTime_eq hend, htogether]

theorem InLine.totalWaiting_eq (hw : w.Nonneg) (hsort : pol.sortByBurstTime = true)
    (htogether : ∀ p, w.arrivalTime p = a) (h : Loop.Reaches loopBody (startState pol w) s)
    (hend : s.loopBody = none) :
    s.finish.totalWaiting = pairMin w.burstTime (List.finRange n) := by
  have hc := Reaches.coherent hw (valid_of_sort hsort) (boostPeriod_of_sort hsort) h
  have hline := Reaches.inLine hw hsort htogether h
  have hstart := startState_starting hw pol
  have horder : s.dispatches.map Dispatch.process =
      arrivals (startState pol w).eventQueue.items := by
    have heq := hline.line
    rw [SchedulerState.line, hc.idle (hc.running_of_ended hend), loopBody_eq_none.mp hend] at heq
    simpa [arrivals] using heq
  -- every process is dispatched once, in the order of the arrivals
  have hperm : (s.dispatches.map Dispatch.process).Perm (List.finRange n) := by
    rw [horder]
    exact hstart.arrivals.trans (List.reverse_perm _)
  -- so its only segment is its last one, and it has waited until that began
  have hwaiting : ∀ d ∈ s.dispatches,
      (s.finish.processes d.process).waitingTime = d.segment.start - a := by
    intro d hd
    obtain ⟨d', hlast, hfinish⟩ := hc.last_of_ended hend d.process
    obtain ⟨hd', hprocess⟩ := mem_dispatchesOf.mp (List.mem_of_getLast? hlast)
    obtain rfl := List.inj_on_of_nodup_map (hperm.nodup_iff.mpr (List.nodup_finRange n)) hd' hd
      hprocess
    rw [hc.waitingTime_eq hend, hfinish, htogether, Dispatch.stop, hline.full d' hd]
    show d'.time + w.burstTime d'.process - a - w.burstTime d'.process = d'.time - a
    omega
  have hlog : s.log.map Segment.process = s.dispatches.map Dispatch.process := by
    rw [log, List.map_map]
    rfl
  have hsorted : (s.log.map Segment.process).Pairwise fun p r =>
      w.burstTime p ≤ w.burstTime r := by
    rw [hlog, horder]
    exact startArrivals_sorted hsort htogether
  have hsum : s.finish.totalWaiting = (s.log.map fun d => d.start - a).sum := by
    rw [totalWaiting_eq_sum, ← (hperm.map _).sum_eq, List.map_map, log, List.map_map]
    exact congrArg List.sum (List.map_congr_left hwaiting)
  rcases isEmpty_or_nonempty (Fin n) with hempty | ⟨⟨p⟩⟩
  · have hlognil : s.log = [] :=
      List.eq_nil_iff_forall_not_mem.mpr fun d _ => hempty.elim d.process
    have hnil : List.finRange n = [] := List.eq_nil_iff_forall_not_mem.mpr fun p _ => hempty.elim p
    rw [hsum, hlognil, hnil]
    rfl
  · have hrelease : 0 ≤ a := htogether p ▸ hw.arrival p
    have hfull : ∀ d ∈ s.log, d.length = w.burstTime d.process := by
      intro d hd
      obtain ⟨d', hd', rfl⟩ := List.mem_map.mp hd
      exact hline.full d' hd'
    calc s.finish.totalWaiting = (s.log.map fun d => d.start - a).sum := hsum
      _ = backToBackWaiting w.burstTime a a (s.log.map Segment.process) :=
        hc.cpu.timeline.backToBack hrelease htogether hfull
      _ = pairMin w.burstTime (s.log.map Segment.process) := backToBackWaiting_of_sorted hsorted
      _ = pairMin w.burstTime (List.finRange n) := by rw [hlog, pairMin_perm hperm]

end Ended

end SchedulerState

open SchedulerState

/-- When all processes arrive together, SJF and STCF make them wait no longer altogether than any
order in which they run back to back, and no longer than any other policy. -/
theorem totalWaiting_minimal (hw : w.Nonneg) (htogether : ∀ p, w.arrivalTime p = a) {best : Policy}
    (hbest : best = .sjf ∨ best = .stcf) :
    (∃ fuel s, simulateScheduler best w fuel = some s) ∧
      ∀ fuel (s : SchedulerState best n), simulateScheduler best w fuel = some s →
        (∀ order : List (Fin n), order.Perm (List.finRange n) →
          s.totalWaiting ≤ backToBackWaiting w.burstTime a a order) ∧
        ∀ pol : Policy, pol.Valid → pol.boostPeriod ≤ 0 →
          (∃ fuel' s', simulateScheduler pol w fuel' = some s') ∧
            ∀ fuel' (s' : SchedulerState pol n), simulateScheduler pol w fuel' = some s' →
              s.totalWaiting ≤ s'.totalWaiting := by
  have hsort : best.sortByBurstTime = true := by
    rcases hbest with rfl | rfl <;> rfl
  refine ⟨simulateScheduler_returns hw (valid_of_sort hsort) (boostPeriod_of_sort hsort),
    fun fuel s hsim => ?_⟩
  obtain ⟨t, hreach, hend, rfl⟩ := simulateScheduler_eq_some hsim
  rw [InLine.totalWaiting_eq hw hsort htogether hreach hend]
  refine ⟨fun order horder => ?_, fun pol hpol hboost =>
    ⟨simulateScheduler_returns hw hpol hboost, ?_⟩⟩
  · rw [← pairMin_perm horder]
    exact pairMin_le_backToBackWaiting order
  · intro fuel' s' hsim'
    obtain ⟨t', hreach', hend', rfl⟩ := simulateScheduler_eq_some hsim'
    exact (Reaches.coherent hw hpol hboost hreach').pairMin_le_totalWaiting hend' htogether

def togetherWorkload : Workload 3 where
  pid := ![['A'], ['B'], ['C']]
  arrivalTime := ![2, 2, 2]
  burstTime := ![5, 1, 3]

theorem togetherWorkload_nonneg : togetherWorkload.Nonneg := ⟨by decide, by decide⟩

theorem totalWaiting_minimal_sample :
    (∃ fuel s, simulateScheduler .stcf togetherWorkload fuel = some s) ∧
      ∀ fuel (s : SchedulerState .stcf 3), simulateScheduler .stcf togetherWorkload fuel = some s →
        (∀ order : List (Fin 3), order.Perm (List.finRange 3) →
          s.totalWaiting ≤ backToBackWaiting togetherWorkload.burstTime 2 2 order) ∧
        ∀ pol : Policy, pol.Valid → pol.boostPeriod ≤ 0 →
          (∃ fuel' s', simulateScheduler pol togetherWorkload fuel' = some s') ∧
            ∀ fuel' (s' : SchedulerState pol 3),
              simulateScheduler pol togetherWorkload fuel' = some s' →
              s.totalWaiting ≤ s'.totalWaiting :=
  totalWaiting_minimal togetherWorkload_nonneg (by decide) (.inr rfl)

end OsLab.Sched
