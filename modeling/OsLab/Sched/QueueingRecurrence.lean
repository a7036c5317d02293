import OsLab.Sched.MinimalWaiting

/-! First come, first served as a queueing recurrence. The dispatched, the waiting and the queued
processes form one line in the order of their arrivals, which no round changes; each process is
served in one piece, as soon as the one before it is done and it has arrived itself. -/

namespace OsLab.Sched

variable {n : Nat} {w : Workload n}

/-- `a` arrives before `b`, or at the same time and comes first in the input. -/
def ComesFirst (w : Workload n) (a b : Fin n) : Prop :=
  w.arrivalTime a < w.arrivalTime b ∨ w.arrivalTime a = w.arrivalTime b ∧ a ≤ b

instance (w : Workload n) : DecidableRel (ComesFirst w) := fun _ _ =>
  inferInstanceAs (Decidable (_ ∨ _))

theorem ComesFirst.trans {a b c : Fin n} (h : ComesFirst w a b) (h' : ComesFirst w b c) :
    ComesFirst w a c := by
  unfold ComesFirst at *
  omega

theorem ComesFirst.total (w : Workload n) (a b : Fin n) : ComesFirst w a b ∨ ComesFirst w b a := by
  unfold ComesFirst
  omega

theorem ComesFirst.antisymm {a b : Fin n} (h : ComesFirst w a b) (h' : ComesFirst w b a) :
    a = b := by
  unfold ComesFirst at *
  omega

def Workload.byArrival (w : Workload n) : List (Fin n) :=
  (List.finRange n).insertionSort (ComesFirst w)

theorem Workload.byArrival_pairwise (w : Workload n) : w.byArrival.Pairwise (ComesFirst w) := by
  have : Std.Total (ComesFirst w) := ⟨ComesFirst.total w⟩
  have : IsTrans (Fin n) (ComesFirst w) := ⟨fun _ _ _ => ComesFirst.trans⟩
  exact List.pairwise_insertionSort (ComesFirst w) (List.finRange n)

theorem Workload.byArrival_perm (w : Workload n) : w.byArrival.Perm (List.finRange n) :=
  List.perm_insertionSort (ComesFirst w) (List.finRange n)

theorem Workload.eq_byArrival {l : List (Fin n)} (hperm : l.Perm (List.finRange n))
    (hsorted : l.Pairwise (ComesFirst w)) : l = w.byArrival :=
  List.Perm.eq_of_pairwise (fun _ _ _ _ h h' => h.antisymm h') hsorted w.byArrival_pairwise
    (hperm.trans w.byArrival_perm.symm)

/-- What `print_metrics` prints in the row of a process. -/
structure MetricsRow where
  tt : Int
  wt : Int
  rt : Int

def metricsRow (p : Process) : MetricsRow where
  tt := p.finishTime - p.arrivalTime
  wt := p.finishTime - p.arrivalTime - p.burstTime
  rt := p.startTime - p.arrivalTime

namespace SchedulerState

variable {s s' : SchedulerState .fcfs n}

theorem startState_comesFirst :
    (arrivals (startState .fcfs w).eventQueue.items).Pairwise (ComesFirst w) := by
  refine (startState_induction (fun l s =>
    (∀ e ∈ s.eventQueue.items, ∃ a ∈ l, e.isArrivalOf w a) ∧
      (arrivals s.eventQueue.items).Pairwise (ComesFirst w)) ⟨?_, ?_⟩
    (fun l p s _ _ hlt ⟨hevents, hsorted⟩ => ⟨fun e he => ?_, ?_⟩)
    fun _ _ _ _ _ hboost => absurd hboost (by decide)).2
  · simp [initialState]
  · simp [initialState, arrivals]
  · rcases mem_enqueueEvent.mp he with rfl | he
    · exact ⟨p, List.mem_cons_self, rfl, rfl⟩
    · obtain ⟨a, hmem, ha⟩ := hevents e he
      exact ⟨a, List.mem_cons_of_mem p hmem, ha⟩
  · refine insertBefore_arrivals (fun _ _ _ => ComesFirst.trans) rfl (fun c hc => ?_) hsorted
    obtain ⟨a, hmem, hat, htype⟩ := hevents c hc
    refine ⟨a, htype, fun hstop => ?_, fun hpass => ?_⟩
    · have hlater : w.arrivalTime p < w.arrivalTime a := by
        simpa [stopsAt, Policy.sortByBurstTime, hat] using hstop
      exact .inl hlater
    · have hle := not_stopsAt_le hpass
      rw [hat] at hle
      exact hle.lt_or_eq.imp id fun heq => ⟨heq, (hlt a hmem).le⟩

theorem startState_arrivals_fcfs (hw : w.Nonneg) :
    arrivals (startState .fcfs w).eventQueue.items = w.byArrival :=
  Workload.eq_byArrival ((startState_starting hw .fcfs).arrivals.trans (List.reverse_perm _))
    startState_comesFirst

theorem dispatch_line (s : SchedulerState .fcfs n) (p : Fin n) (arrange : Bool) :
    (s.dispatch p arrange).line = s.dispatches.map Dispatch.process ++
      p :: Policy.members _ s.waiting ++ arrivals s.eventQueue.items := by
  rw [line, dispatch_arrivals, dispatch_dispatches, dispatch_waiting]
  simp

theorem dispatchNext_line (s : SchedulerState .fcfs n) (arrange : Bool) :
    (s.dispatchNext arrange).line = s.line := by
  obtain ⟨_, heq⟩ | ⟨p, waiting, _, hmem, heq⟩ := s.dispatchNext_cases arrange
  · rw [heq]
    rfl
  · rw [heq, dispatch_line, line, hmem]

theorem Round.line {e : Event n} {q : EventQueue n} (hc : Coherent w s)
    (hq : s.eventQueue.items = e :: q.items) (h : Round s e q s') : s'.line = s.line := by
  cases h with
  | start p he hrun =>
    rw [dispatch_line, SchedulerState.line, hq, arrivals_cons_arrival he, hc.idle hrun]
    show s.dispatches.map Dispatch.process ++ p :: Policy.members _ s.waiting ++ Sched.arrivals q.items = _
    rw [hc.idle hrun]
    simp
  | wait p r he hrun hle =>
    rw [SchedulerState.line, SchedulerState.line, hq, arrivals_cons_arrival he]
    show s.dispatches.map Dispatch.process ++ (Policy.members _ s.waiting ++ [p]) ++
      Sched.arrivals q.items = _
    simp
  | preempt p r he hrun hstcf hlt => exact absurd hstcf Bool.false_ne_true
  | complete p he hrun hrem =>
    rw [dispatchNext_line]
    show s.dispatches.map Dispatch.process ++ Policy.members _ s.waiting ++ Sched.arrivals q.items = _
    rw [popped_arrivals hq (by rw [Event.arrival?, he])]
    rfl
  | expire p he hrun hrem => exact absurd (hc.whole Policy.fcfs_nonpreemptive p hrun) hrem.ne'

theorem Reaches.line (hw : w.Nonneg) (h : Loop.Reaches loopBody (startState .fcfs w) s) :
    s.line = w.byArrival := by
  refine Reaches.induction hw Policy.fcfs_valid (by decide) (fun s => s.line = w.byArrival) ?_
    (fun _ _ _ _ hc _ hq hround ih => (hround.line hc hq).trans ih) h
  have hstart := startState_starting hw .fcfs
  rw [SchedulerState.line, hstart.dispatches, hstart.waiting, startState_arrivals_fcfs hw]
  rfl

theorem Reaches.dispatched_of_ended (hw : w.Nonneg)
    (h : Loop.Reaches loopBody (startState .fcfs w) s) (hend : s.loopBody = none) :
    s.dispatches.map Dispatch.process = w.byArrival := by
  have hc := Reaches.coherent hw Policy.fcfs_valid (by decide) h
  have hline := Reaches.line hw h
  rw [SchedulerState.line, hc.idle (hc.running_of_ended hend),
    loopBody_eq_none.mp hend] at hline
  simpa [arrivals] using hline

theorem Coherent.segment_of_ended (hc : Coherent w s) (hend : s.loopBody = none)
    (hdispatched : s.dispatches.map Dispatch.process = w.byArrival) {d : Dispatch n}
    (hd : d ∈ s.dispatches) : (s.processes d.process).startTime = d.time ∧
      (s.processes d.process).finishTime = d.stop ∧ d.runTime = w.burstTime d.process := by
  have hnodup : (s.dispatches.map Dispatch.process).Nodup := by
    rw [hdispatched, w.byArrival_perm.nodup_iff]
    exact List.nodup_finRange n
  have hunique : ∀ d' ∈ s.dispatchesOf d.process, d' = d := fun d' hd' =>
    List.inj_on_of_nodup_map hnodup (mem_dispatchesOf.mp hd').1 hd (mem_dispatchesOf.mp hd').2
  have hone : (s.dispatchesOf d.process).length = 1 := by
    have hcount : (s.dispatchesOf d.process).length =
        (s.dispatches.map Dispatch.process).count d.process := by
      rw [List.count, List.countP_map, List.countP_eq_length_filter]
      rfl
    rw [hcount, hdispatched, w.byArrival_perm.count_eq]
    exact List.count_eq_one_of_mem (List.nodup_finRange n) (List.mem_finRange d.process)
  have hsingle : s.dispatchesOf d.process = [d] := List.eq_replicate_iff.mpr ⟨hone, hunique⟩
  have hrecorded := hc.recorded d.process
  have hserved := hc.served_of_ended hend d.process
  rw [served_log, hsingle] at hserved
  have hstart := hrecorded.startTime
  have hfinish := hrecorded.finishTime
  rw [if_pos (hc.remainingTime_of_ended hend d.process)] at hfinish
  rw [hsingle] at hstart hfinish
  exact ⟨hstart, hfinish, by simpa using hserved⟩

end SchedulerState

open SchedulerState

structure QueueingRecurrence (w : Workload n) (s : SchedulerState .fcfs n) : Prop where
  first : ∀ p ∈ w.byArrival.head?, (s.processes p).startTime = w.arrivalTime p
  next : w.byArrival.IsChain fun p q => (s.processes q).startTime =
    max ((s.processes p).startTime + w.burstTime p) (w.arrivalTime q)
  finish : ∀ p, (s.processes p).finishTime = (s.processes p).startTime + w.burstTime p
  waiting : ∀ p, (metricsRow (s.processes p)).wt = (s.processes p).startTime - w.arrivalTime p

theorem SchedulerState.Coherent.recurrence {s : SchedulerState .fcfs n} (hw : w.Nonneg)
    (hc : Coherent w s) (hend : s.loopBody = none)
    (hdispatched : s.dispatches.map Dispatch.process = w.byArrival) :
    QueueingRecurrence w s.finish := by
  have hsegment := fun d hd => hc.segment_of_ended (d := d) hend hdispatched hd
  obtain ⟨hfirst, hchain⟩ := hc.cpu.timeline.starts hw.arrival
  have hfinish : ∀ p, (s.processes p).finishTime = (s.processes p).startTime + w.burstTime p := by
    intro p
    have hp : p ∈ s.dispatches.map Dispatch.process := by
      rw [hdispatched, w.byArrival_perm.mem_iff]
      exact List.mem_finRange p
    obtain ⟨d, hd, rfl⟩ := List.mem_map.mp hp
    obtain ⟨hstart, hstop, hrun⟩ := hsegment d hd
    rw [hstart, hstop, Dispatch.stop, hrun]
  rw [hc.finish_eq hend]
  refine ⟨fun p hp => ?_, ?_, hfinish, fun p => ?_⟩
  · rw [← hdispatched, List.head?_map] at hp
    obtain ⟨d, hd, rfl⟩ := Option.map_eq_some_iff.mp hp
    have hlog : d.segment ∈ s.log.head? := by
      rw [log, List.head?_map, hd]
      rfl
    exact (hsegment d (List.mem_of_mem_head? hd)).1.trans (hfirst d.segment hlog)
  · rw [← hdispatched, List.isChain_map]
    have hdispatches := (List.isChain_map Dispatch.segment).mp hchain
    refine hdispatches.imp_of_mem_imp fun d e hd he hnext => ?_
    obtain ⟨hstart, _, hrun⟩ := hsegment d hd
    obtain ⟨hstart', _, _⟩ := hsegment e he
    show (s.processes e.process).startTime =
      max ((s.processes d.process).startTime + w.burstTime d.process) (w.arrivalTime e.process)
    rw [hstart, hstart', ← hrun]
    exact hnext
  · show (s.processes p).finishTime - (s.processes p).arrivalTime - (s.processes p).burstTime =
      (s.processes p).startTime - w.arrivalTime p
    rw [hfinish, (hc.recorded p).arrivalTime, (hc.recorded p).burstTime]
    omega

theorem simulateScheduler_recurrence {fuel : Nat} {s : SchedulerState .fcfs n} (hw : w.Nonneg)
    (hsim : simulateScheduler .fcfs w fuel = some s) : QueueingRecurrence w s := by
  obtain ⟨t, hreach, hend, rfl⟩ := simulateScheduler_eq_some hsim
  have hc := Reaches.coherent hw Policy.fcfs_valid (by decide) hreach
  exact hc.recurrence hw hend (Reaches.dispatched_of_ended hw hreach hend)

theorem fcfs_recurrence (hw : w.Nonneg) :
    (∃ fuel s, simulateScheduler .fcfs w fuel = some s) ∧
      ∀ fuel s, simulateScheduler .fcfs w fuel = some s → QueueingRecurrence w s :=
  ⟨simulateScheduler_returns hw Policy.fcfs_valid (by decide), fun _ _ hsim =>
    simulateScheduler_recurrence hw hsim⟩

def queueWorkload : Workload 4 where
  pid := ![['A'], ['B'], ['C'], ['D']]
  arrivalTime := ![7, 2, 5, 5]
  burstTime := ![1, 3, 2, 0]

example : queueWorkload.byArrival = [1, 2, 3, 0] := by decide

theorem fcfs_recurrence_queue :
    (∃ fuel s, simulateScheduler .fcfs queueWorkload fuel = some s) ∧
      ∀ fuel s, simulateScheduler .fcfs queueWorkload fuel = some s →
        QueueingRecurrence queueWorkload s :=
  fcfs_recurrence ⟨by decide, by decide⟩

end OsLab.Sched
