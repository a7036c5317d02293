import OsLab.Sched.EventQueue
import OsLab.Sched.ProcessQueues

/-! The scheduling algorithms of `schedulers/`, and for each of them the waiting queue that
`main` pairs it with. A policy stands for the function pointer, together with the parameters
that no handler writes: `quantum_time` and the MLFQ configuration. Each algorithm reads the
running process and returns it with its run time. -/

namespace OsLab.Sched

variable {n : Nat}

inductive Policy where
  | fcfs
  | sjf
  | stcf
  | rr (quantumTime : Int)
  | mlfq (config : MLFQConfig) (numLevels_pos : 0 < config.numLevels)

def setFinish (p : Process) (time : Int) : Process :=
  { p with
    finishTime := time
    turnaroundTime := time - p.arrivalTime
    waitingTime := time - p.arrivalTime - p.burstTime }

/-- The common body of `schedule_fcfs` and `schedule_sjf`. -/
def runToCompletion (currentTime : Int) (running : Process) : Process × Int :=
  ({ running with
      startTime := currentTime
      finishTime := currentTime + running.burstTime
      responseTime := currentTime - running.arrivalTime
      waitingTime := currentTime - running.arrivalTime
      turnaroundTime := currentTime + running.burstTime - running.arrivalTime },
    running.remainingTime)

def scheduleFcfs (currentTime : Int) (running : Process) : Process × Int :=
  runToCompletion currentTime running

def scheduleSjf (currentTime : Int) (running : Process) : Process × Int :=
  runToCompletion currentTime running

def scheduleStcf (eventQueue : EventQueue n) (currentTime : Int) (running : Process) :
    Process × Int :=
  let running :=
    if running.startTime = -1 then
      { running with startTime := currentTime, responseTime := currentTime - running.arrivalTime }
    else running
  let timeUntilArrival :=
    match peekNextArrival eventQueue with
    | some next => if next.time > currentTime then next.time - currentTime else running.remainingTime
    | none => running.remainingTime
  let runTime :=
    if running.remainingTime ≤ timeUntilArrival then running.remainingTime else timeUntilArrival
  let running :=
    if runTime = running.remainingTime then setFinish running (currentTime + runTime) else running
  (running, runTime)

def scheduleRr (quantumTime currentTime : Int) (running : Process) : Process × Int :=
  let runTime :=
    if running.remainingTime ≤ quantumTime then running.remainingTime else quantumTime
  let running :=
    if running.startTime = -1 then { running with startTime := currentTime } else running
  let running :=
    if runTime = running.remainingTime then { running with finishTime := currentTime + runTime }
    else running
  (running, runTime)

def scheduleMlfq (config : MLFQConfig) (currentTime : Int) (running : Process) : Process × Int :=
  let quantum := mlfqGetQuantum config running.priority
  let runTime :=
    if quantum = -1 then running.remainingTime
    else if running.remainingTime ≤ quantum then running.remainingTime else quantum
  let running :=
    if running.startTime = -1 then { running with startTime := currentTime } else running
  let running := { running with timeInQueue := running.timeInQueue + runTime }
  let running :=
    if runTime = running.remainingTime then setFinish running (currentTime + runTime) else running
  (running, runTime)

def mlfqCheckDemotion {config : MLFQConfig} (ps : Table n) (mq : MLFQProcessQueue n config)
    (running : Fin n) : Bool × Table n × MLFQProcessQueue n config :=
  let level := (ps running).priority
  let allotment := mlfqGetAllotment config level
  if allotment = -1 then (false, ps, mq)
  else if (ps running).timeInQueue ≥ allotment then
    let nextLevel := if level + 1 ≥ config.numLevels then (config.numLevels : Int) - 1 else level + 1
    if nextLevel ≠ level then
      let (ps, mq) := mlfqDemoteProcess ps mq running nextLevel
      (true, ps.modify running fun p => { p with priority := nextLevel }, mq)
    else (false, ps, mq)
  else (false, ps, mq)

namespace Policy

def Queue (n : Nat) : Policy → Type
  | .fcfs => FCFSProcessQueue n
  | .sjf => SJFProcessQueue n
  | .stcf => STCFProcessQueue n
  | .rr _ => RRProcessQueue n
  | .mlfq config _ => MLFQProcessQueue n config

def emptyQueue (n : Nat) : (pol : Policy) → pol.Queue n
  | .fcfs => CountedList.empty
  | .sjf => CountedList.empty
  | .stcf => CountedList.empty
  | .rr _ => constructRRProcessQueue
  | .mlfq _ h => ⟨Levels.empty _, h⟩

def enqueue (ps : Table n) : (pol : Policy) → pol.Queue n → Fin n → Table n × pol.Queue n
  | .fcfs, q, p => (ps, fcfsEnqueue q p)
  | .sjf, q, p => (ps, sjfEnqueue ps q p)
  | .stcf, q, p => (ps, stcfEnqueue ps q p)
  | .rr _, q, p => (ps, rrEnqueue q p)
  | .mlfq _ _, q, p => mlfqEnqueue ps q p

def dequeue : (pol : Policy) → pol.Queue n → Option (Fin n × pol.Queue n)
  | .fcfs, q => fcfsDequeue q
  | .sjf, q => sjfDequeue q
  | .stcf, q => stcfDequeue q
  | .rr _, q => rrDequeue q
  | .mlfq _ _, q => mlfqDequeue q

def size : (pol : Policy) → pol.Queue n → Nat
  | .fcfs, q => CountedList.size q
  | .sjf, q => CountedList.size q
  | .stcf, q => CountedList.size q
  | .rr _, q => RRProcessQueue.size q
  | .mlfq _ _, q => (MLFQProcessQueue.levelQueues q).size

/-- The waiting processes, in the order in which they would be dequeued one after another. -/
def members : (pol : Policy) → pol.Queue n → List (Fin n)
  | .fcfs, q => CountedList.items q
  | .sjf, q => CountedList.items q
  | .stcf, q => CountedList.items q
  | .rr _, q => RRProcessQueue.members q
  | .mlfq _ _, q => MLFQProcessQueue.members q

def sortByBurstTime : Policy → Bool
  | .sjf => true
  | .stcf => true
  | _ => false

def isStcf : Policy → Bool
  | .stcf => true
  | _ => false

def schedule (eventQueue : EventQueue n) (currentTime : Int) (running : Process) :
    Policy → Process × Int
  | .fcfs => scheduleFcfs currentTime running
  | .sjf => scheduleSjf currentTime running
  | .stcf => scheduleStcf eventQueue currentTime running
  | .rr quantumTime => scheduleRr quantumTime currentTime running
  | .mlfq config _ => scheduleMlfq config currentTime running

/-- The demotion check of `handle_quantum_expire`, made for MLFQ only. -/
def checkDemotion (ps : Table n) : (pol : Policy) → pol.Queue n → Fin n →
    Bool × Table n × pol.Queue n
  | .mlfq _ _, q, running => mlfqCheckDemotion ps q running
  | _, q, _ => (false, ps, q)

/-- How `handle_quantum_expire` puts the preempted process back. -/
def requeue (ps : Table n) (demoted : Bool) : (pol : Policy) → pol.Queue n → Fin n →
    Table n × pol.Queue n
  | .rr _, q, running => (ps, rrRequeue q running)
  | pol, q, running => if demoted then (ps, q) else pol.enqueue ps q running

def priorityBoost (ps : Table n) : (pol : Policy) → pol.Queue n → Table n × pol.Queue n
  | .mlfq _ _, q => mlfqPriorityBoost ps q
  | _, q => (ps, q)

def boostPeriod : Policy → Int
  | .mlfq config _ => config.boostPeriod
  | _ => -1

def isMlfq : Policy → Bool
  | .mlfq _ _ => true
  | _ => false

end Policy
end OsLab.Sched
