import OsLab.Foundation.Cpu
import OsLab.Sched.PolicySpec
import OsLab.Sched.Simulator

/-! The simulator's state as a state of the abstract CPU, and what every state of a run
satisfies as long as no segment is cut short while its end is still queued. -/

namespace OsLab.Sched

variable {n : Nat} {pol : Policy}

def Event.completion? (e : Event n) : Option (Fin n) :=
  match e.type with
  | .completion p => some p
  | _ => none

def completed (events : List (Event n)) : List (Fin n) := events.filterMap Event.completion?

def Dispatch.segment (d : Dispatch n) : Segment (Fin n) := ⟨d.process, d.time, d.runTime⟩

@[simp] theorem Dispatch.segment_stop (d : Dispatch n) : d.segment.stop = d.stop := rfl

namespace SchedulerState

def log (s : SchedulerState pol n) : List (Segment (Fin n)) := s.dispatches.map Dispatch.segment

def dispatchesOf (s : SchedulerState pol n) (p : Fin n) : List (Dispatch n) :=
  s.dispatches.filter fun d => d.process = p

def view (s : SchedulerState pol n) (running : Option (Fin n)) (ready : Multiset (Fin n)) :
    Cpu (Fin n) where
  now := s.currentTime
  pending := arrivals s.eventQueue.items
  ready := ready
  running := running
  finished := completed s.handled
  left p := (s.processes p).remainingTime
  log := s.log

def cpu (s : SchedulerState pol n) : Cpu (Fin n) := s.view s.running (pol.members s.waiting)

def segmentEnd (s : SchedulerState pol n) (p : Fin n) : Event n :=
  ⟨frontier s.log, if (s.processes p).remainingTime = 0 then .completion p else .quantumExpire p⟩

theorem segmentEnd_process (s : SchedulerState pol n) (p : Fin n) :
    (s.segmentEnd p).process = some p := by
  unfold segmentEnd
  split_ifs <;> rfl

/-- The record of a process agrees with the workload and with its dispatches so far. -/
structure Recorded (w : Workload n) (s : SchedulerState pol n) (p : Fin n) : Prop where
  arrivalTime : (s.processes p).arrivalTime = w.arrivalTime p
  burstTime : (s.processes p).burstTime = w.burstTime p
  startTime : (s.processes p).startTime =
    ((s.dispatchesOf p).head?.map Dispatch.time).getD unknownTime
  finishTime : (s.processes p).finishTime =
    if (s.processes p).remainingTime = 0 then
      ((s.dispatchesOf p).getLast?.map Dispatch.stop).getD unknownTime
    else unknownTime

structure Core (w : Workload n) (s : SchedulerState pol n) : Prop where
  ordered : TimeOrdered s.eventQueue.items
  future : ∀ e ∈ s.eventQueue.items, s.currentTime ≤ e.time
  arrival : ∀ e ∈ s.eventQueue.items, ∀ p, e.type = .arrival p → e.time = w.arrivalTime p
  recorded : ∀ p, s.Recorded w p

structure Coherent (w : Workload n) (s : SchedulerState pol n) : Prop extends Core w s where
  cpu : Cpu.Inv w.arrivalTime w.burstTime s.cpu
  ends : segmentEnds s.eventQueue.items = s.running.toList.map s.segmentEnd
  idle : s.running = none → pol.members s.waiting = []
  preemption : pol.isStcf → ∀ p, s.running = some p → 0 < (s.processes p).remainingTime →
    ∀ q ∈ arrivals s.eventQueue.items, frontier s.log ≤ w.arrivalTime q
  whole : pol.Nonpreemptive → ∀ p, s.running = some p → (s.processes p).remainingTime = 0
  fresh : pol.Nonpreemptive → ∀ p ∈ pol.members s.waiting, ∀ d ∈ s.log, d.process ≠ p

/-- The CPU is free and one of `ready` is about to be dispatched. -/
structure Free (w : Workload n) (s : SchedulerState pol n) (ready : Multiset (Fin n)) : Prop
    extends Core w s where
  cpu : Cpu.Inv w.arrivalTime w.burstTime (s.view none ready)
  ends : segmentEnds s.eventQueue.items = []
  fresh : pol.Nonpreemptive → ∀ p ∈ ready, ∀ d ∈ s.log, d.process ≠ p

variable {w : Workload n} {s : SchedulerState pol n} {p : Fin n} {r : Int}

theorem Core.sameTimes (h : Core w s) {ps : Table n} (hps : SameTimes s.processes ps)
    (running : Option (Fin n)) (waiting : pol.Queue n) :
    Core w { s with processes := ps, running := running, waiting := waiting } :=
  { h with
    recorded := fun p => {
      arrivalTime := (hps.arrivalTime p).trans (h.recorded p).arrivalTime
      burstTime := (hps.burstTime p).trans (h.recorded p).burstTime
      startTime := (hps.startTime p).trans (h.recorded p).startTime
      finishTime := by
        rw [hps.finishTime p, hps.remainingTime p]
        exact (h.recorded p).finishTime } }

theorem view_sameTimes {ps : Table n} (hps : SameTimes s.processes ps)
    (running running' : Option (Fin n)) (waiting : pol.Queue n) (ready : Multiset (Fin n)) :
    ({ s with processes := ps, running := running, waiting := waiting } :
      SchedulerState pol n).view running' ready = s.view running' ready := by
  unfold view
  simp only [hps.remainingTime]
  rfl

theorem segmentEnd_sameTimes {ps : Table n} (hps : SameTimes s.processes ps)
    {running : Option (Fin n)} {waiting : pol.Queue n} (p : Fin n) :
    ({ s with processes := ps, running := running, waiting := waiting } :
      SchedulerState pol n).segmentEnd p = s.segmentEnd p := by
  simp only [segmentEnd, hps.remainingTime]
  rfl

theorem Free.sameTimes {ready : Multiset (Fin n)} (h : Free w s ready) {ps : Table n}
    (hps : SameTimes s.processes ps) (running : Option (Fin n)) (waiting : pol.Queue n) :
    Free w { s with processes := ps, running := running, waiting := waiting } ready where
  toCore := h.toCore.sameTimes hps running waiting
  cpu := by
    rw [view_sameTimes hps]
    exact h.cpu
  ends := h.ends
  fresh := h.fresh

theorem addWaiting_members (s : SchedulerState pol n) (p : Fin n) :
    (pol.members (s.addWaiting p).waiting : Multiset (Fin n)) = p ::ₘ pol.members s.waiting :=
  Multiset.coe_eq_coe.mpr (pol.enqueue_members s.processes s.waiting p)

theorem addWaiting_view (s : SchedulerState pol n) (p : Fin n) (running : Option (Fin n))
    (ready : Multiset (Fin n)) : (s.addWaiting p).view running ready = s.view running ready :=
  view_sameTimes (pol.enqueue_sameTimes s.processes s.waiting p) s.running running _ ready

theorem Core.addWaiting (h : Core w s) (p : Fin n) : Core w (s.addWaiting p) :=
  h.sameTimes (pol.enqueue_sameTimes s.processes s.waiting p) s.running _

/-- The run time of a dispatch of `p` in this state. -/
def runTime (s : SchedulerState pol n) (p : Fin n) : Int :=
  (pol.schedule s.eventQueue s.currentTime (s.processes p)).2

@[simp] theorem startSegment_dispatches (s : SchedulerState pol n) (p : Fin n) :
    (s.startSegment p).1.dispatches =
      s.dispatches ++ [⟨p, s.currentTime, s.runTime p, s.processes p, s.eventQueue⟩] := rfl

theorem Free.unstarted {ready : Multiset (Fin n)} (hnon : pol.Nonpreemptive) (h : Free w s ready)
    (hp : p ∈ ready) : (s.processes p).startTime = -1 ∧
      (s.processes p).remainingTime = (s.processes p).burstTime := by
  have hnone : s.dispatchesOf p = [] := by
    refine List.filter_eq_nil_iff.mpr fun d hd => ?_
    exact decide_eq_false (h.fresh hnon p hp d.segment (List.mem_map_of_mem hd)) ▸ Bool.false_ne_true
  have hleft : (s.processes p).remainingTime = w.burstTime p :=
    h.cpu.left_of_unserved (h.fresh hnon p hp)
  exact ⟨by simp [(h.recorded p).startTime, hnone, unknownTime],
    hleft.trans (h.recorded p).burstTime.symm⟩

theorem Free.scheduled {ready : Multiset (Fin n)} (hpol : pol.Valid) (h : Free w s ready)
    (hp : p ∈ ready) :
    Scheduled s.currentTime (s.processes p)
      (pol.schedule s.eventQueue s.currentTime (s.processes p)) :=
  Policy.schedule_scheduled hpol (h.cpu.left_nonneg p) fun hnon => h.unstarted hnon hp

theorem dispatchesOf_startSegment (s : SchedulerState pol n) (p q : Fin n) :
    (s.startSegment p).1.dispatchesOf q = s.dispatchesOf q ++
      if p = q then [⟨p, s.currentTime, s.runTime p, s.processes p, s.eventQueue⟩] else [] := by
  simp only [dispatchesOf, startSegment_dispatches, List.filter_append, List.filter_singleton]
  by_cases h : p = q <;> simp [h]

theorem startSegment_remainingTime (hs : Scheduled s.currentTime (s.processes p)
      (pol.schedule s.eventQueue s.currentTime (s.processes p))) :
    ((s.startSegment p).1.processes p).remainingTime =
      (s.processes p).remainingTime - s.runTime p := by
  simp only [startSegment, Function.update_self, hs.remainingTime]
  rfl

theorem startSegment_view (hs : Scheduled s.currentTime (s.processes p)
      (pol.schedule s.eventQueue s.currentTime (s.processes p))) (ready ready' : Multiset (Fin n)) :
    (s.startSegment p).1.view (some p) ready =
      { s.view none ready' with
        ready := ready
        running := some p
        left := Function.update (s.view none ready').left p ((s.view none ready').left p - s.runTime p)
        log := s.log ++ [⟨p, s.currentTime, s.runTime p⟩] } := by
  unfold view
  congr 1
  · funext q
    rcases eq_or_ne q p with rfl | hq
    · rw [Function.update_self, startSegment_remainingTime hs]
    · simp only [startSegment, Function.update_of_ne hq]
  · simp [log, Dispatch.segment]

theorem Free.time_nonneg {ready : Multiset (Fin n)} (hw : w.Nonneg) (h : Free w s ready)
    {d : Dispatch n} (hd : d ∈ s.dispatches) : 0 ≤ d.time :=
  (hw.arrival d.process).trans (h.cpu.timeline.arrival_le d.segment (List.mem_map_of_mem hd))

theorem Free.startSegment_recorded {ready : Multiset (Fin n)} (hw : w.Nonneg) (hpol : pol.Valid)
    (h : Free w s ready) (hp : p ∈ ready) : (s.startSegment p).1.Recorded w p := by
  have hs := h.scheduled hpol hp
  have hr := h.recorded p
  have hrecord : (s.startSegment p).1.processes p =
      { (pol.schedule s.eventQueue s.currentTime (s.processes p)).1 with
        remainingTime := (s.processes p).remainingTime - s.runTime p } := by
    simp only [startSegment, Function.update_self, hs.remainingTime, runTime]
  refine ⟨?_, ?_, ?_, ?_⟩ <;> simp only [hrecord]
  · rw [hs.arrivalTime, hr.arrivalTime]
  · rw [hs.burstTime, hr.burstTime]
  · rw [hs.startTime, hr.startTime, dispatchesOf_startSegment, if_pos rfl]
    cases hd : s.dispatchesOf p with
    | nil => simp [unknownTime]
    | cons d ds =>
      have := h.time_nonneg hw (List.mem_filter.mp (hd ▸ List.mem_cons_self)).1
      have hne : d.time ≠ -1 := by omega
      simp [hne]
  · have hle := hs.le
    have hnonneg := hs.nonneg
    change s.runTime p ≤ _ at hle
    change 0 ≤ s.runTime p at hnonneg
    rw [hs.finishTime, dispatchesOf_startSegment, if_pos rfl, List.getLast?_concat]
    change (if s.runTime p = _ then s.currentTime + s.runTime p else _) = _
    by_cases hall : s.runTime p = (s.processes p).remainingTime
    · rw [if_pos hall, if_pos (by omega)]
      rfl
    · have hold := hr.finishTime
      rw [if_neg (by omega)] at hold
      rw [if_neg hall, if_neg (by omega), hold]

theorem Free.startSegment_core {ready : Multiset (Fin n)} (hw : w.Nonneg) (hpol : pol.Valid)
    (h : Free w s ready) (hp : p ∈ ready) : Core w (s.startSegment p).1 :=
  { h.toCore with
    recorded := fun q => by
      rcases eq_or_ne q p with rfl | hq
      · exact h.startSegment_recorded hw hpol hp
      · have hsame : (s.startSegment p).1.processes q = s.processes q :=
          Function.update_of_ne hq ..
        have hown : (s.startSegment p).1.dispatchesOf q = s.dispatchesOf q := by
          rw [dispatchesOf_startSegment, if_neg (Ne.symm hq), List.append_nil]
        exact ⟨hsame ▸ (h.recorded q).arrivalTime, hsame ▸ (h.recorded q).burstTime,
          by rw [hsame, hown, (h.recorded q).startTime],
          by rw [hsame, hown, (h.recorded q).finishTime]⟩ }

theorem queueSegmentEnd_eq (s : SchedulerState pol n) (arrange : Bool)
    (hr : frontier s.log = s.currentTime + r) :
    s.queueSegmentEnd p r arrange = s.addEvent (s.segmentEnd p) arrange := by
  simp only [queueSegmentEnd, segmentEnd, hr]

theorem addEvent_view (s : SchedulerState pol n) {e : Event n} (arrange : Bool)
    (he : e.arrival? = none) (running : Option (Fin n)) (ready : Multiset (Fin n)) :
    (s.addEvent e arrange).view running ready = s.view running ready := by
  unfold view
  congr 1
  exact Multiset.coe_eq_coe.mpr (enqueueEvent_arrivals s.processes s.eventQueue e arrange he)

theorem Core.addEvent (h : Core w s) {e : Event n} (arrange : Bool) (he : e.arrival? = none)
    (htime : s.currentTime ≤ e.time) : Core w (s.addEvent e arrange) :=
  { h with
    ordered := enqueueEvent_ordered s.processes e arrange h.ordered
    future := fun e' he' => by
      rcases mem_enqueueEvent.mp he' with rfl | he'
      · exact htime
      · exact h.future e' he'
    arrival := fun e' he' q hq => by
      rcases mem_enqueueEvent.mp he' with rfl | he'
      · simp [Event.arrival?, hq] at he
      · exact h.arrival e' he' q hq
    recorded := fun q => ⟨(h.recorded q).arrivalTime, (h.recorded q).burstTime,
      (h.recorded q).startTime, (h.recorded q).finishTime⟩ }

theorem segmentEnd_arrival? (s : SchedulerState pol n) (p : Fin n) :
    (s.segmentEnd p).arrival? = none := by
  unfold segmentEnd Event.arrival?
  split_ifs <;> rfl

theorem segmentEnd_endsSegment (s : SchedulerState pol n) (p : Fin n) :
    (s.segmentEnd p).endsSegment = true := by
  unfold segmentEnd Event.endsSegment
  split_ifs <;> rfl

theorem runTime_stcf (hpol : pol.isStcf) (h : Core w s) (hlt : s.runTime p ≠ (s.processes p).remainingTime)
    {q : Fin n} (hq : q ∈ arrivals s.eventQueue.items) :
    s.currentTime + s.runTime p ≤ w.arrivalTime q := by
  cases pol with
  | stcf =>
    obtain hall | ⟨e, hpeek, _, _, hrun⟩ :=
      scheduleStcf_runTime s.eventQueue s.currentTime (s.processes p)
    · exact absurd hall hlt
    · change s.runTime p = _ at hrun
      obtain ⟨e', he', ha⟩ := List.mem_filterMap.mp hq
      have htype : e'.type = .arrival q := by
        cases ht : e'.type <;> simp_all [Event.arrival?]
      have hle := peekNextArrival_le h.ordered hpeek he' htype
      rw [h.arrival e' he' q htype] at hle
      omega
  | _ => simp [Policy.isStcf] at hpol

theorem startSegment_log (hs : Scheduled s.currentTime (s.processes p)
      (pol.schedule s.eventQueue s.currentTime (s.processes p))) :
    (s.startSegment p).1.log = s.log ++ [⟨p, s.currentTime, s.runTime p⟩] :=
  congrArg Cpu.log (startSegment_view hs 0 0)

theorem startSegment_frontier (hs : Scheduled s.currentTime (s.processes p)
      (pol.schedule s.eventQueue s.currentTime (s.processes p))) :
    frontier (s.startSegment p).1.log = s.currentTime + s.runTime p := by
  rw [startSegment_log hs, frontier_snoc, Segment.stop]

theorem dispatch_eq_addEvent (hs : Scheduled s.currentTime (s.processes p)
      (pol.schedule s.eventQueue s.currentTime (s.processes p))) (arrange : Bool) :
    s.dispatch p arrange =
      (s.startSegment p).1.addEvent ((s.startSegment p).1.segmentEnd p) arrange :=
  queueSegmentEnd_eq _ arrange (startSegment_frontier hs)

theorem dispatch_cpu (hs : Scheduled s.currentTime (s.processes p)
      (pol.schedule s.eventQueue s.currentTime (s.processes p))) (arrange : Bool) :
    (s.dispatch p arrange).cpu =
      (s.startSegment p).1.view (some p) (pol.members s.waiting) := by
  rw [dispatch_eq_addEvent hs]
  exact addEvent_view _ arrange (segmentEnd_arrival? _ p) _ _

theorem Free.dispatch_step {ready : Multiset (Fin n)} (hpol : pol.Valid) (h : Free w s ready)
    (hp : ready = p ::ₘ pol.members s.waiting) (arrange : Bool) :
    Cpu.Step w.arrivalTime (s.view none ready) (s.dispatch p arrange).cpu ∧
      (s.dispatch p arrange).cpu.progress < (s.view none ready).progress := by
  have hs := h.scheduled hpol (hp ▸ Multiset.mem_cons_self p _)
  rw [dispatch_cpu hs, startSegment_view hs (pol.members s.waiting) ready]
  exact ⟨.dispatch p _ _ rfl hp hs.nonneg hs.le hs.progress,
    Cpu.progress_dispatch h.cpu hp hs.nonneg hs.le hs.progress⟩

theorem Free.dispatch_core {ready : Multiset (Fin n)} (hw : w.Nonneg) (hpol : pol.Valid)
    (h : Free w s ready) (hp : p ∈ ready) (arrange : Bool) : Core w (s.dispatch p arrange) := by
  have hs := h.scheduled hpol hp
  have hnonneg : 0 ≤ s.runTime p := hs.nonneg
  rw [dispatch_eq_addEvent hs]
  refine (h.startSegment_core hw hpol hp).addEvent arrange (segmentEnd_arrival? _ p) ?_
  show s.currentTime ≤ frontier (s.startSegment p).1.log
  rw [startSegment_frontier hs]
  omega

theorem Free.dispatch {ready : Multiset (Fin n)} (hw : w.Nonneg) (hpol : pol.Valid)
    (h : Free w s ready) (hp : ready = p ::ₘ pol.members s.waiting) (arrange : Bool) :
    Coherent w (s.dispatch p arrange) ∧
      Cpu.Step w.arrivalTime (s.view none ready) (s.dispatch p arrange).cpu ∧
      (s.dispatch p arrange).cpu.progress < (s.view none ready).progress := by
  have hmem : p ∈ ready := hp ▸ Multiset.mem_cons_self p _
  have hs := h.scheduled hpol hmem
  have hstep := h.dispatch_step hpol hp arrange
  have hdispatch := dispatch_eq_addEvent hs arrange
  have hleft := startSegment_remainingTime hs
  have hprocesses : (s.dispatch p arrange).processes = (s.startSegment p).1.processes := by
    rw [hdispatch]
    rfl
  have hlog : (s.dispatch p arrange).log = (s.startSegment p).1.log :=
    congrArg Cpu.log (dispatch_cpu hs arrange)
  have hrunning : ∀ q, (s.dispatch p arrange).running = some q → q = p := fun q hq => by
    rw [hdispatch] at hq
    exact (Option.some.inj hq).symm
  refine ⟨{ h.dispatch_core hw hpol hmem arrange with
    cpu := h.cpu.step hstep.1, ends := ?_, idle := ?_, preemption := ?_, whole := ?_,
    fresh := ?_ }, hstep⟩
  · rw [hdispatch]
    exact enqueueEvent_segmentEnds _ _ _ _ (segmentEnd_endsSegment _ p) h.ends
  · intro hnone
    rw [hdispatch] at hnone
    exact absurd hnone (Option.some_ne_none p)
  · intro hstcf q hq hrem a ha
    -- a segment of STCF that leaves something over ends at the next arrival
    rw [hprocesses, hrunning q hq, hleft] at hrem
    rw [hlog, startSegment_frontier hs]
    refine runTime_stcf hstcf h.toCore (by omega) ?_
    rw [hdispatch] at ha
    exact (enqueueEvent_arrivals _ _ _ arrange (segmentEnd_arrival? _ p)).mem_iff.mp ha
  · intro hnon q hq
    have hall : s.runTime p = (s.processes p).remainingTime := Policy.schedule_nonpreemptive hnon ..
    rw [hprocesses, hrunning q hq, hleft, hall, sub_self]
  · intro hnon q hq d hd
    have hq : q ∈ pol.members s.waiting := by
      rw [hdispatch] at hq
      exact hq
    rw [hlog, startSegment_log hs] at hd
    rcases List.mem_append.mp hd with hd | hd
    · exact h.fresh hnon q (hp ▸ Multiset.mem_cons_of_mem hq) d hd
    · rw [List.mem_singleton.mp hd]
      rintro rfl
      exact h.cpu.notMem_of_cons_ready hp hq

end SchedulerState
end OsLab.Sched
