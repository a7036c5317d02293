import OsLab.Sched.Rounds

/-! When RR and MLFQ are FCFS: with a quantum that no burst exceeds, or with an unlimited quantum on
level 0 and no boost, their runs follow those of FCFS round by round. -/

namespace OsLab.Sched

variable {n : Nat} {pol : Policy}

inductive Policy.RunsWhole (w : Workload n) : Policy → Prop
  | rr (quantumTime : Int) (hburst : ∀ p, w.burstTime p ≤ quantumTime) :
    RunsWhole w (.rr quantumTime)
  | mlfq (config : MLFQConfig) (numLevels_pos : 0 < config.numLevels)
    (hquantum : mlfqGetQuantum config 0 = -1) (hboost : config.boostPeriod ≤ 0) :
    RunsWhole w (.mlfq config numLevels_pos)

namespace Policy.RunsWhole

variable {w : Workload n}

theorem sortByBurstTime_eq (h : pol.RunsWhole w) : pol.sortByBurstTime = false := by
  cases h <;> rfl

theorem isStcf_eq (h : pol.RunsWhole w) : pol.isStcf = false := by
  cases h <;> rfl

theorem boostPeriod_le (h : pol.RunsWhole w) : pol.boostPeriod ≤ 0 := by
  cases h with
  | rr quantumTime hburst => exact rr_boostPeriod_le quantumTime
  | mlfq config hpos hquantum hboost => exact hboost

end Policy.RunsWhole

def Process.bare (p : Process) : Process :=
  { p with waitingTime := 0, priority := 0, timeInQueue := 0, turnaroundTime := 0, responseTime := 0 }

section Bare

variable {p p' : Process}

theorem Process.arrivalTime_of_bare (h : p'.bare = p.bare) : p'.arrivalTime = p.arrivalTime :=
  (congrArg Process.arrivalTime h :)

theorem Process.remainingTime_of_bare (h : p'.bare = p.bare) :
    p'.remainingTime = p.remainingTime := (congrArg Process.remainingTime h :)

theorem Process.startTime_of_bare (h : p'.bare = p.bare) : p'.startTime = p.startTime :=
  (congrArg Process.startTime h :)

theorem Process.finishTime_of_bare (h : p'.bare = p.bare) : p'.finishTime = p.finishTime :=
  (congrArg Process.finishTime h :)

theorem Process.bare_charge (h : p'.bare = p.bare) {r r' : Int} (hr : r' = r) :
    Process.bare { p' with remainingTime := r' } = Process.bare { p with remainingTime := r } := by
  rw [hr]
  exact congrArg (fun p : Process => { p with remainingTime := r }) h

theorem Process.bare_of_whole {now : Int} (h : p'.bare = p.bare)
    (hrem : p.remainingTime = p.burstTime) {r : Process} (hr : r.bare =
      { p'.bare with startTime := now, finishTime := now + p'.remainingTime }) :
    r.bare = (scheduleFcfs now p).1.bare := by
  rw [hr, h, remainingTime_of_bare h, hrem]
  rfl

end Bare

theorem scheduleRr_whole {quantum now : Int} {p : Process} (hle : p.remainingTime ≤ quantum)
    (hstart : p.startTime = -1) :
    (scheduleRr quantum now p).2 = p.remainingTime ∧ (scheduleRr quantum now p).1.bare =
      { p.bare with startTime := now, finishTime := now + p.remainingTime } := by
  unfold scheduleRr
  simp only [if_pos hle, if_pos hstart, if_true, true_and]
  rfl

theorem scheduleMlfq_whole {config : MLFQConfig} {now : Int} {p : Process}
    (hquantum : mlfqGetQuantum config p.priority = -1) (hstart : p.startTime = -1) :
    (scheduleMlfq config now p).2 = p.remainingTime ∧ (scheduleMlfq config now p).1.bare =
      { p.bare with startTime := now, finishTime := now + p.remainingTime } := by
  unfold scheduleMlfq
  simp only [hquantum, if_pos hstart, if_true, true_and]
  rfl

namespace Policy

def Plain (ps : Table n) : (pol : Policy) → pol.Queue n → Prop
  | .mlfq _ _, q => (∀ p, (ps p).priority = 0) ∧
      (MLFQProcessQueue.levelQueues q).queues.tail.flatten = []
  | _, _ => True

namespace RunsWhole

variable {w : Workload n} {ps : Table n} {q : pol.Queue n}

theorem plain_start (h : pol.RunsWhole w) : pol.Plain w.processes (pol.emptyQueue n) := by
  cases h with
  | rr quantumTime hburst => trivial
  | mlfq config hpos hquantum hboost =>
    refine ⟨fun _ => rfl, ?_⟩
    show (List.replicate config.numLevels ([] : List (Fin n))).tail.flatten = []
    simp

theorem enqueue (h : pol.RunsWhole w) (hq : pol.Plain ps q) (p : Fin n) :
    (pol.enqueue ps q p).1 = ps ∧
      pol.members (pol.enqueue ps q p).2 = pol.members q ++ [p] ∧
      pol.Plain ps (pol.enqueue ps q p).2 := by
  cases h with
  | rr quantumTime hburst =>
    refine ⟨rfl, ?_, trivial⟩
    show _ ++ (RRProcessQueue.pending q ++ [p]) = _
    rw [← List.append_assoc]
    rfl
  | mlfq config hpos hquantum hboost =>
    obtain ⟨hpriority, htail⟩ := hq
    have heq : mlfqEnqueue ps q p =
        (ps, { q with levelQueues := (MLFQProcessQueue.levelQueues q).push 0 hpos p }) :=
      mlfqEnqueue_eq ps q hpos (hpriority p)
    show (mlfqEnqueue ps q p).1 = ps ∧
      (mlfqEnqueue ps q p).2.members = MLFQProcessQueue.members q ++ [p] ∧ (∀ r, (ps r).priority = 0) ∧
        (mlfqEnqueue ps q p).2.levelQueues.queues.tail.flatten = []
    rw [heq]
    refine ⟨rfl, Levels.members_push_zero hpos p htail, hpriority, ?_⟩
    show ((MLFQProcessQueue.levelQueues q).push 0 hpos p).queues.tail.flatten = []
    rw [Levels.tail_push_zero, htail]

theorem dequeue {q' : pol.Queue n} {p : Fin n} (h : pol.RunsWhole w) (hq : pol.Plain ps q)
    (hd : pol.dequeue q = some (p, q')) : pol.Plain ps q' := by
  cases h with
  | rr quantumTime hburst => trivial
  | mlfq config hpos hquantum hboost =>
    obtain ⟨r, hpop, heq⟩ := Option.map_eq_some_iff.mp hd
    obtain ⟨rfl, rfl⟩ := Prod.mk.inj heq
    refine ⟨hq.1, ?_⟩
    have hsub := popFirst_tail_sublist (Levels.pop_queues hpop)
    rw [hq.2] at hsub
    exact List.sublist_nil.mp hsub

theorem schedule (h : pol.RunsWhole w) (hq : pol.Plain ps q) {p : Fin n} {r : Process}
    (hsame : (ps p).bare = r.bare) (hburst : r.burstTime = w.burstTime p)
    (hfresh : r.startTime = -1 ∧ r.remainingTime = r.burstTime) (events : EventQueue n) (now : Int) :
    (pol.schedule events now (ps p)).2 = (scheduleFcfs now r).2 ∧
      (pol.schedule events now (ps p)).1.bare = (scheduleFcfs now r).1.bare := by
  obtain ⟨hstart, hrem⟩ := hfresh
  have hstart' : (ps p).startTime = -1 := (Process.startTime_of_bare hsame).trans hstart
  have hrem' := Process.remainingTime_of_bare hsame
  have hwhole : (pol.schedule events now (ps p)).2 = (ps p).remainingTime ∧
      (pol.schedule events now (ps p)).1.bare =
        { (ps p).bare with startTime := now, finishTime := now + (ps p).remainingTime } := by
    cases h with
    | rr quantumTime hle =>
      apply scheduleRr_whole _ hstart'
      rw [hrem', hrem, hburst]
      exact hle p
    | mlfq config hpos hquantum hboost =>
      apply scheduleMlfq_whole _ hstart'
      rw [hq.1 p, hquantum]
  exact ⟨hwhole.1.trans hrem', Process.bare_of_whole hsame hrem hwhole.2⟩

theorem plain_update (h : pol.RunsWhole w) (hq : pol.Plain ps q) (p : Fin n)
    (events : EventQueue n) (now rem : Int) :
    pol.Plain (Function.update ps p
      { (pol.schedule events now (ps p)).1 with remainingTime := rem }) q := by
  cases h with
  | rr quantumTime hburst => trivial
  | mlfq config hpos hquantum hboost =>
    refine ⟨fun r => ?_, hq.2⟩
    rcases eq_or_ne r p with rfl | hr
    · rw [Function.update_self]
      show (scheduleMlfq config now (ps r)).1.priority = 0
      rw [(scheduleMlfq_record config now (ps r)).2.1, hq.1 r]
    · rw [Function.update_of_ne hr, hq.1 r]

end RunsWhole
end Policy

namespace SchedulerState

variable {w : Workload n}

/-- The two runs stand at the same point: only what no handler of theirs reads may differ. -/
structure Alike (s : SchedulerState .fcfs n) (t : SchedulerState pol n) : Prop where
  bare : ∀ p, (t.processes p).bare = (s.processes p).bare
  running : t.running = s.running
  members : pol.members t.waiting = Policy.members .fcfs s.waiting
  currentTime : t.currentTime = s.currentTime
  eventQueue : t.eventQueue = s.eventQueue
  log : t.log = s.log
  plain : pol.Plain t.processes t.waiting

namespace Alike

variable {s : SchedulerState .fcfs n} {t : SchedulerState pol n} {e : Event n} {q : EventQueue n}

theorem popped (h : Alike s t) (e : Event n) (q : EventQueue n) :
    Alike (s.popped e q) (t.popped e q) :=
  { h with currentTime := rfl, eventQueue := rfl }

theorem stopped (h : Alike s t) : Alike { s with running := none } { t with running := none } :=
  { h with running := rfl }

theorem addEvent (h : Alike s t) (e : Event n) :
    Alike (s.addEvent e false) (t.addEvent e false) :=
  { h with
    eventQueue := by
      show enqueueEvent t.processes t.eventQueue e false = enqueueEvent s.processes s.eventQueue e false
      rw [h.eventQueue]
      rfl }

theorem addWaiting (hpol : pol.RunsWhole w) (h : Alike s t) (p : Fin n) :
    Alike (s.addWaiting p) (t.addWaiting p) := by
  obtain ⟨hps, hmembers, hplain⟩ := hpol.enqueue h.plain p
  have hprocesses : (t.addWaiting p).processes = t.processes := hps
  refine { h with bare := ?_, members := ?_, plain := ?_ }
  · rw [hprocesses]
    exact h.bare
  · refine hmembers.trans ?_
    rw [h.members]
    rfl
  · rw [hprocesses]
    exact hplain

theorem dequeue (hpol : pol.RunsWhole w) (h : Alike s t) {p : Fin n}
    {waiting : FCFSProcessQueue n} (hd : Policy.dequeue .fcfs s.waiting = some (p, waiting)) :
    ∃ waiting', pol.dequeue t.waiting = some (p, waiting') ∧
      Alike { s with waiting := waiting } { t with waiting := waiting' } := by
  have hmembers : pol.members t.waiting = p :: Policy.members .fcfs waiting := by
    rw [h.members, Policy.dequeue_members hd]
  cases hd' : pol.dequeue t.waiting with
  | none =>
    rw [Policy.dequeue_eq_none.mp hd'] at hmembers
    exact absurd hmembers (List.cons_ne_nil _ _).symm
  | some r =>
    have hcons := Policy.dequeue_members hd'
    rw [hmembers] at hcons
    obtain ⟨hp, hrest⟩ := List.cons.inj hcons
    refine ⟨r.2, by rw [hp], { h with members := hrest.symm, plain := hpol.dequeue h.plain hd' }⟩

theorem startSegment (hpol : pol.RunsWhole w) (h : Alike s t) {p : Fin n}
    (hburst : (s.processes p).burstTime = w.burstTime p)
    (hfresh : (s.processes p).startTime = -1 ∧
      (s.processes p).remainingTime = (s.processes p).burstTime) :
    (t.startSegment p).2 = (s.startSegment p).2 ∧
      Alike (s.startSegment p).1 (t.startSegment p).1 := by
  obtain ⟨hrun, hrecord⟩ :=
    hpol.schedule h.plain (h.bare p) hburst hfresh t.eventQueue t.currentTime
  rw [h.currentTime] at hrun hrecord
  have hrunTime : (t.startSegment p).2 = (s.startSegment p).2 := by
    show (pol.schedule t.eventQueue t.currentTime (t.processes p)).2 = _
    rw [h.currentTime]
    exact hrun
  refine ⟨hrunTime, { h with bare := fun r => ?_, running := rfl, log := ?_, plain := ?_ }⟩
  · rcases eq_or_ne r p with rfl | hr
    · simp only [SchedulerState.startSegment, Function.update_self, h.currentTime, hrun]
      apply Process.bare_charge hrecord
      rw [Process.remainingTime_of_bare hrecord]
      rfl
    · simp only [SchedulerState.startSegment, Function.update_of_ne hr]
      exact h.bare r
  · have hlog := h.log
    simp only [SchedulerState.log] at hlog ⊢
    rw [startSegment_dispatches, startSegment_dispatches, List.map_append, List.map_append, hlog]
    show _ ++ [(⟨p, t.currentTime, (t.startSegment p).2⟩ : Segment (Fin n))] = _
    rw [hrunTime, h.currentTime]
    rfl
  · exact hpol.plain_update h.plain p t.eventQueue t.currentTime _

theorem dispatch (hpol : pol.RunsWhole w) (h : Alike s t) {p : Fin n}
    (hburst : (s.processes p).burstTime = w.burstTime p)
    (hfresh : (s.processes p).startTime = -1 ∧
      (s.processes p).remainingTime = (s.processes p).burstTime) :
    Alike (s.dispatch p false) (t.dispatch p false) := by
  obtain ⟨hrun, hstart⟩ := h.startSegment hpol hburst hfresh
  have hevent := hstart.addEvent
    ⟨s.currentTime + s.runTime p, if ((s.startSegment p).1.processes p).remainingTime = 0 then
      .completion p else .quantumExpire p⟩
  have heq : t.dispatch p false = (t.startSegment p).1.addEvent
      ⟨s.currentTime + s.runTime p, if ((s.startSegment p).1.processes p).remainingTime = 0 then
        .completion p else .quantumExpire p⟩ false := by
    rw [← Process.remainingTime_of_bare (hstart.bare p), ← h.currentTime]
    show (t.startSegment p).1.queueSegmentEnd p (t.startSegment p).2 false = _
    rw [hrun]
    rfl
  rw [heq]
  exact hevent

theorem dispatchNext (hpol : pol.RunsWhole w) (h : Alike s t)
    (hnext : ∀ p ∈ Policy.members .fcfs s.waiting,
      (s.processes p).burstTime = w.burstTime p ∧ (s.processes p).startTime = -1 ∧
        (s.processes p).remainingTime = (s.processes p).burstTime) :
    Alike (s.dispatchNext false) (t.dispatchNext false) := by
  rcases s.dispatchNext_cases false with ⟨hnil, heq⟩ | ⟨p, waiting, hd, hmembers, heq⟩
  · rw [heq, t.dispatchNext_of_empty (h.members.trans hnil)]
    exact h.stopped
  · obtain ⟨waiting', hd', halike⟩ := h.dequeue hpol hd
    rw [heq, dispatchNext_of_dequeue hd' false]
    obtain ⟨hburst, hfresh⟩ := hnext p (hmembers ▸ List.mem_cons_self)
    exact halike.dispatch hpol hburst hfresh

theorem round (hw : w.Nonneg) (hpol : pol.RunsWhole w) (h : Alike s t) (hc : Coherent w s)
    (hq : s.eventQueue.items = e :: q.items) {s' : SchedulerState .fcfs n} (hround : Round s e q s') :
    ∃ t', t.loopBody = some t' ∧ Alike s' t' := by
  have hsort : pol.sortByBurstTime = false := hpol.sortByBurstTime_eq
  have hbody : t.loopBody = some ((t.popped e q).handleEvent e) :=
    loopBody_of_items (h.eventQueue ▸ hq)
  refine ⟨_, hbody, ?_⟩
  have hpopped := h.popped e q
  cases hround with
  | start p he hrun =>
    have hfree := hc.free_arrival hq he hrun
    have hfresh := hfree.unstarted Policy.fcfs_nonpreemptive (Multiset.mem_cons_self p _)
    have heq : (t.popped e q).handleEvent e = (t.popped e q).dispatch p false := by
      rw [handleEvent_arrival he, handleArrival_eq_of_idle (h.running.trans hrun), hsort]
    rw [heq]
    exact hpopped.dispatch hpol (hc.recorded p).burstTime hfresh
  | wait p r he hrun hle =>
    have heq : (t.popped e q).handleEvent e = (t.popped e q).addWaiting p := by
      rw [handleEvent_arrival he, handleArrival_eq_of_wait (h.running.trans hrun)]
      rw [hpol.isStcf_eq]
      exact fun hpre => Bool.false_ne_true hpre.1
    rw [heq]
    exact hpopped.addWaiting hpol p
  | preempt p r he hrun hstcf hlt => exact absurd hstcf Bool.false_ne_true
  | complete p he hrun hrem =>
    -- `schedule_rr` and `schedule_mlfq` have stamped the finish time when the segment began
    have hfree := (hc.free_completion hq he).1
    have hfinish := hc.toCore.finishTime_ne (stop_nonneg hw hc.cpu.timeline) hrem
      (hc.cpu.running_logged p hrun)
    rw [← Process.finishTime_of_bare (h.bare p)] at hfinish
    have heq : (t.popped e q).handleEvent e =
        { t.popped e q with running := none }.dispatchNext false := by
      rw [handleEvent_completion he, ← hsort]
      exact handleCompletion_eq (h.running.trans hrun) hfinish
    rw [heq]
    apply hpopped.stopped.dispatchNext hpol
    intro r hr
    exact ⟨(hc.recorded r).burstTime, hfree.unstarted Policy.fcfs_nonpreemptive hr⟩
  | expire p he hrun hrem =>
    -- no segment of FCFS leaves anything over
    have hzero := hc.whole trivial p hrun
    omega

end Alike

theorem startState_alike (hpol : pol.RunsWhole w) :
    Alike (startState .fcfs w) (startState pol w) := by
  have hfold : ∀ (l : List (Fin n)) (s : SchedulerState .fcfs n) (t : SchedulerState pol n),
      Alike s t →
      Alike
        (l.foldl (fun s i => s.addEvent ⟨(s.processes i).arrivalTime, .arrival i⟩ false) s)
        (l.foldl (fun s i => s.addEvent ⟨(s.processes i).arrivalTime, .arrival i⟩ false) t) := by
    intro l
    induction l with
    | nil => exact fun _ _ h => h
    | cons p l ih =>
      intro s t h
      rw [List.foldl_cons, List.foldl_cons, Process.arrivalTime_of_bare (h.bare p)]
      exact ih _ _ (h.addEvent _)
  have hinit : Alike (initialState .fcfs w) (initialState pol w) :=
    { bare := fun _ => rfl, running := rfl, currentTime := rfl, eventQueue := rfl, log := rfl
      members := pol.members_emptyQueue
      plain := hpol.plain_start }
  have hnoboost : ∀ pol' : Policy, pol'.boostPeriod ≤ 0 → startState pol' w =
      (List.finRange n).foldl (fun s i => s.addEvent ⟨(s.processes i).arrivalTime, .arrival i⟩
        pol'.sortByBurstTime) (initialState pol' w) := by
    intro pol' hboost
    unfold startState initializeEvents
    dsimp only
    rw [if_neg (by omega)]
  rw [hnoboost pol hpol.boostPeriod_le, hnoboost .fcfs (by decide), hpol.sortByBurstTime_eq]
  exact hfold _ _ _ hinit

end SchedulerState

open SchedulerState

variable {w : Workload n}

/-- RR whose quantum no burst exceeds, and MLFQ with an unlimited quantum on level 0 and no boost,
return the start and finish times of FCFS after the same dispatches. -/
theorem simulateScheduler_as_fcfs (hw : w.Nonneg) (hpol : pol.RunsWhole w) :
    (∃ fuel s, simulateScheduler .fcfs w fuel = some s) ∧
      ∀ fuel (s : SchedulerState .fcfs n), simulateScheduler .fcfs w fuel = some s →
        (∃ fuel' t, simulateScheduler pol w fuel' = some t) ∧
          ∀ fuel' (t : SchedulerState pol n), simulateScheduler pol w fuel' = some t →
            (∀ p, (t.processes p).startTime = (s.processes p).startTime ∧
              (t.processes p).finishTime = (s.processes p).finishTime) ∧ t.log = s.log := by
  have hboost : Policy.fcfs.boostPeriod ≤ 0 := by decide
  refine ⟨simulateScheduler_returns hw Policy.fcfs_valid hboost, fun fuel s hs => ?_⟩
  obtain ⟨a, hrun, rfl⟩ := Option.map_eq_some_iff.mp hs
  obtain ⟨b, hrun', hreach, halike⟩ := Loop.run_lockstep
    (fun a b => Loop.Reaches loopBody (startState .fcfs w) a ∧ Alike a b)
    (fun a b hr hend => by
      rw [loopBody_eq_none, hr.2.eventQueue]
      exact loopBody_eq_none.mp hend)
    (fun a b a' hr hb => by
      obtain ⟨hc, _, e, q, hq, hround⟩ := Reaches.round hw Policy.fcfs_valid hboost hr.1 hb
      obtain ⟨b', hb', halike⟩ := hr.2.round hw hpol hc hq hround
      exact ⟨b', hb', hr.1.tail hb, halike⟩)
    ⟨.refl, startState_alike hpol⟩ hrun
  refine ⟨⟨fuel, b.finish, by rw [simulateScheduler, hrun']; rfl⟩, fun fuel' t ht => ?_⟩
  obtain ⟨b', hrun'', rfl⟩ := Option.map_eq_some_iff.mp ht
  obtain rfl := Loop.run_unique hrun' hrun''
  have hc := Reaches.coherent hw Policy.fcfs_valid hboost hreach
  have hrunning := hc.running_of_ended (Loop.run_reaches hrun).2
  have hfinish := hc.finish_eq (Loop.run_reaches hrun).2
  have hfinish' : b.finish = b.calculateMetrics := by
    simp only [SchedulerState.finish, halike.running.trans hrunning]
  rw [hfinish, hfinish']
  exact ⟨fun p => ⟨Process.startTime_of_bare (halike.bare p),
    Process.finishTime_of_bare (halike.bare p)⟩, halike.log⟩

theorem rr_runsWhole_sample : Policy.RunsWhole sampleWorkload (.rr 5) := .rr 5 (by decide)

theorem simulateScheduler_as_fcfs_sample :
    (∃ fuel s, simulateScheduler .fcfs sampleWorkload fuel = some s) ∧
      ∀ fuel (s : SchedulerState .fcfs 2), simulateScheduler .fcfs sampleWorkload fuel = some s →
        (∃ fuel' t, simulateScheduler (.rr 5) sampleWorkload fuel' = some t) ∧
          ∀ fuel' (t : SchedulerState (.rr 5) 2),
            simulateScheduler (.rr 5) sampleWorkload fuel' = some t →
            (∀ p, (t.processes p).startTime = (s.processes p).startTime ∧
              (t.processes p).finishTime = (s.processes p).finishTime) ∧ t.log = s.log :=
  simulateScheduler_as_fcfs sampleWorkload_nonneg rr_runsWhole_sample

end OsLab.Sched
