import OsLab.Foundation.Loop
import OsLab.Sched.Policy

/-! The event loop of `simulator.c` and its four handlers.

`dispatches`, `handled` and `enqueued` record the history of a run. The C program does not
have them and no handler reads them. -/

namespace OsLab.Sched

variable {n : Nat} {pol : Policy}

def maxGanttEntries : Nat := 1024

structure GanttEntry where
  name : List Char
  start : Int
  stop : Int
deriving DecidableEq, Repr

structure Gantt where
  entries : List GanttEntry
  size_le : entries.length ≤ maxGanttEntries

/-- One call of the scheduling algorithm from a handler: what it read and its run time. -/
structure Dispatch (n : Nat) where
  process : Fin n
  time : Int
  runTime : Int
  record : Process
  events : EventQueue n

def Dispatch.stop (d : Dispatch n) : Int := d.time + d.runTime

structure SchedulerState (pol : Policy) (n : Nat) where
  processes : Table n
  running : Option (Fin n)
  waiting : pol.Queue n
  currentTime : Int
  gantt : Gantt
  eventQueue : EventQueue n
  dispatches : List (Dispatch n)
  handled : List (Event n)
  enqueued : List (Int × Event n)

def appendGanttEntry (g : Gantt) (process : Process) (startTime runTime : Int) : Gantt :=
  if h : runTime ≤ 0 ∨ maxGanttEntries ≤ g.entries.length then g
  else
    { entries := g.entries ++ [⟨process.pid.take (pidLength - 1), startTime, startTime + runTime⟩]
      size_le := by
        have := g.size_le
        simp only [List.length_append, List.length_singleton]
        omega }

namespace SchedulerState

def addEvent (s : SchedulerState pol n) (event : Event n) (arrangeByRemainingTime : Bool) :
    SchedulerState pol n :=
  { s with
    eventQueue := enqueueEvent s.processes s.eventQueue event arrangeByRemainingTime
    enqueued := s.enqueued ++ [(s.currentTime, event)] }

def addWaiting (s : SchedulerState pol n) (p : Fin n) : SchedulerState pol n :=
  { s with
    processes := (pol.enqueue s.processes s.waiting p).1
    waiting := (pol.enqueue s.processes s.waiting p).2 }

/-- From the assignment of `state->running` to the update of its remaining time; every
handler that dispatches a process does this first. -/
def startSegment (s : SchedulerState pol n) (p : Fin n) : SchedulerState pol n × Int :=
  let (record, runTime) := pol.schedule s.eventQueue s.currentTime (s.processes p)
  ({ s with
      running := some p
      processes := Function.update s.processes p
        { record with remainingTime := record.remainingTime - runTime }
      gantt := appendGanttEntry s.gantt record s.currentTime runTime
      dispatches := s.dispatches ++ [⟨p, s.currentTime, runTime, s.processes p, s.eventQueue⟩] },
    runTime)

def queueSegmentEnd (s : SchedulerState pol n) (p : Fin n) (runTime : Int)
    (arrangeByRemainingTime : Bool) : SchedulerState pol n :=
  let eventType : EventType n :=
    if (s.processes p).remainingTime = 0 then .completion p else .quantumExpire p
  s.addEvent ⟨s.currentTime + runTime, eventType⟩ arrangeByRemainingTime

def dispatch (s : SchedulerState pol n) (p : Fin n) (arrangeByRemainingTime : Bool) :
    SchedulerState pol n :=
  let (s, runTime) := s.startSegment p
  s.queueSegmentEnd p runTime arrangeByRemainingTime

def handleArrival (s : SchedulerState pol n) (process : Fin n) : SchedulerState pol n :=
  match s.running with
  | none => s.dispatch process pol.sortByBurstTime
  | some running =>
    if pol.isStcf ∧ (s.processes process).remainingTime < (s.processes running).remainingTime then
      let s := { s with eventQueue := removeEventForProcess s.eventQueue running }
      (s.addWaiting running).dispatch process pol.sortByBurstTime
    else s.addWaiting process

def ensureFinish (s : SchedulerState pol n) (p : Fin n) (time : Int) : SchedulerState pol n :=
  if (s.processes p).finishTime = -1 then
    { s with processes := s.processes.modify p (setFinish · time) }
  else s

def handleCompletion (s : SchedulerState pol n) : SchedulerState pol n :=
  let s :=
    match s.running with
    | some running => s.ensureFinish running s.currentTime
    | none => s
  let s := { s with running := none }
  if 0 < pol.size s.waiting then
    match pol.dequeue s.waiting with
    | some (p, waiting) => { s with waiting := waiting }.dispatch p pol.sortByBurstTime
    | none => s
  else s

/-- The preempted process goes back to the waiting queue, unless its demotion put it there. -/
def putBack (s : SchedulerState pol n) (running : Fin n) : SchedulerState pol n :=
  let (demoted, processes, waiting) := pol.checkDemotion s.processes s.waiting running
  let (processes, waiting) := pol.requeue processes demoted waiting running
  { s with processes := processes, waiting := waiting }

def handleQuantumExpire (s : SchedulerState pol n) : SchedulerState pol n :=
  match s.running with
  | some running => next (s.putBack running)
  | none => next s
where
  next (s : SchedulerState pol n) : SchedulerState pol n :=
    if 0 < pol.size s.waiting then
      match pol.dequeue s.waiting with
      | some (p, waiting) => dispatchStamped { s with waiting := waiting } p
      | none => { s with running := none }
    else { s with running := none }
  dispatchStamped (s : SchedulerState pol n) (p : Fin n) : SchedulerState pol n :=
    let (s, runTime) := s.startSegment p
    let s :=
      if (s.processes p).remainingTime = 0 then s.ensureFinish p (s.currentTime + runTime) else s
    s.queueSegmentEnd p runTime pol.sortByBurstTime

/-- A process that is about to complete is left alone; any other is boosted and queued again,
and the events already queued for it stay in the event queue. -/
def handlePriorityBoost (s : SchedulerState pol n) : SchedulerState pol n :=
  if ¬ pol.isMlfq then s
  else
    match s.running with
    | none => reschedule (boostWaiting s)
    | some running =>
      if (s.processes running).remainingTime = 0 then s
      else
        let s := boostWaiting { s with running := none }
        if 0 < (s.processes running).remainingTime then
          reschedule
            ({ s with processes := s.processes.modify running resetPriority }.addWaiting running)
        else { s with running := some running }
where
  boostWaiting (s : SchedulerState pol n) : SchedulerState pol n :=
    { s with
      processes := (pol.priorityBoost s.processes s.waiting).1
      waiting := (pol.priorityBoost s.processes s.waiting).2 }
  reschedule (s : SchedulerState pol n) : SchedulerState pol n :=
    if 0 < pol.size s.waiting then
      match pol.dequeue s.waiting with
      | some (p, waiting) => { s with waiting := waiting }.dispatch p false
      | none => { s with running := none }
    else { s with running := none }

def handleEvent (s : SchedulerState pol n) (event : Event n) : SchedulerState pol n :=
  match event.type with
  | .arrival process => s.handleArrival process
  | .completion _ => s.handleCompletion
  | .quantumExpire _ => s.handleQuantumExpire
  | .priorityBoost => s.handlePriorityBoost

/-- One round of the event loop; `none` when the event queue is empty. -/
def loopBody (s : SchedulerState pol n) : Option (SchedulerState pol n) :=
  match dequeueEvent s.eventQueue with
  | none => none
  | some (event, eventQueue) =>
    some ({ s with
      eventQueue := eventQueue
      currentTime := event.time
      handled := s.handled ++ [event] }.handleEvent event)

/-- The loop that queues the boosts up to `maxTime`; `fuel` bounds the number of rounds. -/
def addBoosts (s : SchedulerState pol n) (boostPeriod maxTime : Int) :
    (fuel : Nat) → (boostTime : Int) → SchedulerState pol n
  | 0, _ => s
  | fuel + 1, boostTime =>
    if boostTime ≤ maxTime then
      addBoosts (s.addEvent ⟨boostTime, .priorityBoost⟩ false) boostPeriod maxTime fuel
        (boostTime + boostPeriod)
    else s

def totalBurst (s : SchedulerState pol n) : Int :=
  ((List.finRange n).map fun i => (s.processes i).burstTime).sum

def maxArrival (s : SchedulerState pol n) : Int :=
  (List.finRange n).foldl (fun m i => if (s.processes i).arrivalTime > m
    then (s.processes i).arrivalTime else m) 0

def initializeEvents (s : SchedulerState pol n) : SchedulerState pol n :=
  let s := (List.finRange n).foldl (fun s i =>
    s.addEvent ⟨(s.processes i).arrivalTime, .arrival i⟩ pol.sortByBurstTime) s
  if pol.isMlfq ∧ 0 < pol.boostPeriod then
    let maxTime := s.maxArrival + s.totalBurst + 1000
    s.addBoosts pol.boostPeriod maxTime maxTime.toNat pol.boostPeriod
  else s

def calculateMetrics (s : SchedulerState pol n) : SchedulerState pol n :=
  { s with processes := fun i =>
      let p := s.processes i
      { p with
        turnaroundTime := p.finishTime - p.arrivalTime
        waitingTime := p.finishTime - p.arrivalTime - p.burstTime
        responseTime := p.startTime - p.arrivalTime } }

def finish (s : SchedulerState pol n) : SchedulerState pol n :=
  let s :=
    match s.running with
    | some running => s.ensureFinish running s.currentTime
    | none => s
  s.calculateMetrics

end SchedulerState

def initialState (pol : Policy) (w : Workload n) : SchedulerState pol n where
  processes := w.processes
  running := none
  waiting := pol.emptyQueue n
  currentTime := 0
  gantt := ⟨[], Nat.zero_le _⟩
  eventQueue := CountedList.empty
  dispatches := []
  handled := []
  enqueued := []

def startState (pol : Policy) (w : Workload n) : SchedulerState pol n :=
  (initialState pol w).initializeEvents

/-- `simulate_scheduler` on a fresh state; `none` when the loop has not ended within `fuel`
rounds. -/
def simulateScheduler (pol : Policy) (w : Workload n) (fuel : Nat) :
    Option (SchedulerState pol n) :=
  (Loop.run SchedulerState.loopBody fuel (startState pol w)).map SchedulerState.finish

end OsLab.Sched
