import OsLab.Sched.Rounds
import OsLab.Schedsim.Arrivals

/-! The event simulator of `discrete-event-simulator.c`. It takes a scheduling algorithm and never
calls it: whatever `main` has chosen, its runs are those of the event loop under FCFS. -/

namespace OsLab.Schedsim.EventSim

open Sched

variable {n : Nat}

inductive EventType where
  | arrival
  | completion
  | quantumExpire
  | priorityBoost
deriving DecidableEq, Repr

structure Event (n : Nat) where
  time : Int
  type : EventType
  process : Fin n
deriving DecidableEq, Repr

/-- The walk of `insert_event` behind the head of the queue. -/
def insertBehind (newEvent : Event n) : List (Event n) → List (Event n)
  | [] => [newEvent]
  | next :: rest =>
    if next.time ≤ newEvent.time then next :: insertBehind newEvent rest
    else newEvent :: next :: rest

def insertEvent (eventQueue : List (Event n)) (newEvent : Event n) : List (Event n) :=
  match eventQueue with
  | [] => [newEvent]
  | head :: rest =>
    if newEvent.time < head.time then newEvent :: head :: rest
    else head :: insertBehind newEvent rest

def initializeArrivalEvents (ps : Table n) : List (Event n) :=
  (List.finRange n).foldl (fun q i => insertEvent q ⟨(ps i).arrivalTime, .arrival, i⟩) []

def maxWaiting : Nat := 256

/-- `waiting` is the array up to `tail`. -/
structure Simulator (n : Nat) where
  processes : Table n
  eventQueue : List (Event n)
  running : Option (Event n)
  waiting : List (Event n)
  waiting_le : waiting.length ≤ maxWaiting
  head : Nat
  waitingSize : Nat
  time : Int
  printed : List (List Char)

def arrivedLine (pid : List Char) (time : Int) : List Char :=
  "Process ".toList ++ pid ++ " arrived at time ".toList ++ (toString time).toList ++ ['\n']

def completedLine (pid : List Char) (time : Int) : List Char :=
  "Process ".toList ++ pid ++ " has been completed at time ".toList ++ (toString time).toList ++
    ['\n']

namespace Simulator

def print (s : Simulator n) (line : List Char) : Simulator n :=
  { s with printed := s.printed ++ [line] }

def start (s : Simulator n) (event : Event n) : Simulator n :=
  let finishTime := s.time + (s.processes event.process).burstTime
  let event : Event n := { event with type := .completion, time := finishTime }
  { s with
    running := some event
    processes := s.processes.modify event.process fun p =>
      { p with startTime := s.time, finishTime := finishTime }
    eventQueue := insertEvent s.eventQueue event }

/-- `none` when the array is full. -/
def addWaiting (s : Simulator n) (event : Event n) : Option (Simulator n) :=
  if h : s.waiting.length < maxWaiting then
    some { s with
      waiting := s.waiting ++ [event]
      waiting_le := by
        rw [List.length_append]
        exact h
      waitingSize := s.waitingSize + 1 }
  else none

def handleArrival (s : Simulator n) (event : Event n) : Option (Simulator n) :=
  let s := s.print (arrivedLine (s.processes event.process).pid s.time)
  match s.running with
  | none => some (s.start event)
  | some _ => s.addWaiting event

/-- `none` when the array has not been written up to `head`. -/
def startNext (s : Simulator n) : Option (Simulator n) :=
  if 0 < s.waitingSize then
    match s.waiting[s.head]? with
    | some next =>
      some ({ s with head := s.head + 1, waitingSize := s.waitingSize - 1 }.start next)
    | none => none
  else some s

def handleCompletion (s : Simulator n) (event : Event n) : Option (Simulator n) :=
  let s := s.print (completedLine (s.processes event.process).pid s.time)
  { s with running := none }.startNext

/-- One round of the event loop, which ends with an empty queue or with an access outside of
`waiting`. -/
def loopBody (s : Simulator n) : Option (Simulator n) :=
  match s.eventQueue with
  | [] => none
  | event :: rest =>
    let s := { s with eventQueue := rest, time := event.time }
    match event.type with
    | .arrival => s.handleArrival event
    | .completion => s.handleCompletion event
    | _ => some s

end Simulator

def startState (ps : Table n) : Simulator n where
  processes := ps
  eventQueue := initializeArrivalEvents ps
  running := none
  waiting := []
  waiting_le := Nat.zero_le _
  head := 0
  waitingSize := 0
  time := 0
  printed := []

/-- `none` when the loop has not come to an empty queue within `fuel` rounds. -/
def simulateScheduler (w : Workload n) (_schedulingAlgorithm : SchedulerState n → Int) (fuel : Nat) :
    Option (Simulator n) :=
  (Loop.run Simulator.loopBody fuel (startState w.processes)).filter (·.eventQueue.isEmpty)

def Event.toSched (e : Event n) : Sched.Event n where
  time := e.time
  type :=
    match e.type with
    | .arrival => .arrival e.process
    | .completion => .completion e.process
    | .quantumExpire => .quantumExpire e.process
    | .priorityBoost => .priorityBoost

@[simp] theorem Event.toSched_time (e : Event n) : e.toSched.time = e.time := rfl

theorem insertBehind_eq (e : Event n) (q : List (Event n)) :
    insertBehind e q = insertBefore (fun c => e.time < c.time) e q := by
  induction q with
  | nil => rfl
  | cons c q ih =>
    rw [insertBehind, insertBefore, ih]
    by_cases h : c.time ≤ e.time
    · rw [if_pos h, if_neg (by simpa using h)]
    · rw [if_neg h, if_pos (by simpa using h)]

theorem insertEvent_eq (q : List (Event n)) (e : Event n) :
    insertEvent q e = insertBefore (fun c => e.time < c.time) e q := by
  cases q with
  | nil => rfl
  | cons c q => simp only [insertEvent, insertBefore, insertBehind_eq, decide_eq_true_eq]

theorem insertEvent_toSched (ps : Table n) (q : List (Event n)) (e : Event n)
    (q' : EventQueue n) (hq : q.map Event.toSched = q'.items) :
    (insertEvent q e).map Event.toSched = (enqueueEvent ps q' e.toSched false).items := by
  have hstop : ∀ c : Event n, stopsAt ps false e.toSched c.toSched = decide (e.time < c.time) := by
    intro c
    simp [stopsAt]
  rw [insertEvent_eq, enqueueEvent, CountedList.items_insert, ← hq]
  induction q generalizing q' with
  | nil => rfl
  | cons c q ih =>
    rw [insertBefore, List.map_cons, insertBefore, hstop]
    split
    · rfl
    · rw [List.map_cons, ih ⟨q.map Event.toSched, _, rfl⟩ rfl]

theorem Event.toSched_arrival {e : Event n} {p : Fin n} (h : e.toSched.type = .arrival p) :
    e.type = .arrival ∧ e.process = p := by
  unfold toSched at h
  cases htype : e.type <;> simp_all

theorem Event.toSched_completion {e : Event n} {p : Fin n} (h : e.toSched.type = .completion p) :
    e.type = .completion ∧ e.process = p := by
  unfold toSched at h
  cases htype : e.type <;> simp_all

def line (w : Workload n) (e : Sched.Event n) : Option (List Char) :=
  match e.type with
  | .arrival p => some (arrivedLine (w.processes p).pid e.time)
  | .completion p => some (completedLine (w.processes p).pid e.time)
  | _ => none

/-- `t` stands where the event loop under FCFS stands in `s`. Every slot of `waiting` is one arrival,
and neither the queued arrivals nor the running process have one. -/
structure Follows (w : Workload n) (s : Sched.SchedulerState .fcfs n) (t : Simulator n) : Prop where
  eventQueue : t.eventQueue.map Event.toSched = s.eventQueue.items
  running : t.running.map Event.process = s.running
  waiting : (t.waiting.drop t.head).map Event.process = Policy.members .fcfs s.waiting
  head_le : t.head ≤ t.waiting.length
  waitingSize : t.waitingSize = (t.waiting.drop t.head).length
  time : t.time = s.currentTime
  pid : ∀ p, (t.processes p).pid = (w.processes p).pid
  burstTime : ∀ p, (t.processes p).burstTime = w.burstTime p
  startTime : ∀ p, (t.processes p).startTime = (s.processes p).startTime
  finishTime : ∀ p, (t.processes p).finishTime = (s.processes p).finishTime
  room : t.waiting.length + (arrivals s.eventQueue.items).length + t.running.toList.length ≤ n
  printed : t.printed = s.handled.filterMap (line w)

namespace Follows

variable {w : Workload n} {s s' : Sched.SchedulerState .fcfs n} {t t' : Simulator n} {e : Event n}
  {rest : List (Event n)} {q : EventQueue n} {p : Fin n}

theorem popped (h : Follows w s t) (ht : t.eventQueue = e :: rest)
    (hq : s.eventQueue.items = e.toSched :: q.items) {text : List Char}
    (htext : line w e.toSched = some text) :
    Follows w (s.popped e.toSched q)
      ({ t with eventQueue := rest, time := e.time }.print text) := by
  have hrest := h.eventQueue
  rw [ht, hq, List.map_cons] at hrest
  have hroom := h.room
  have hsub : (arrivals q.items).length ≤ (arrivals s.eventQueue.items).length := by
    rw [hq]
    exact (List.Sublist.filterMap _ (List.sublist_cons_self _ _)).length_le
  refine { h with eventQueue := (List.cons.inj hrest).2, time := rfl, room := ?_, printed := ?_ }
  · show t.waiting.length + (arrivals q.items).length + t.running.toList.length ≤ n
    omega
  · show t.printed ++ [text] = (s.handled ++ [e.toSched]).filterMap (line w)
    rw [List.filterMap_append, ← h.printed, List.filterMap_cons_some htext, List.filterMap_nil]

theorem stopped (h : Follows w s t) :
    Follows w { s with running := none } { t with running := none } :=
  { h with
    running := rfl
    room := (Nat.add_le_add_left (Nat.zero_le _) _).trans h.room }

theorem start (h : Follows w s t) {e : Event n}
    (hburst : (s.processes e.process).burstTime = w.burstTime e.process)
    (hrem : (s.processes e.process).remainingTime = (s.processes e.process).burstTime)
    (hroom : t.waiting.length + (arrivals s.eventQueue.items).length + 1 ≤ n) :
    Follows w (s.dispatch e.process false) (t.start e) := by
  have hstop : t.time + (t.processes e.process).burstTime =
      s.currentTime + (s.processes e.process).burstTime := by
    rw [h.time, h.burstTime, hburst]
  -- nothing is left over, so the segment ends with the completion
  have hdispatch : s.dispatch e.process false = (s.startSegment e.process).1.addEvent
      ⟨s.currentTime + (s.processes e.process).burstTime, .completion e.process⟩ false := by
    have hrun : (s.startSegment e.process).2 = (s.processes e.process).burstTime := hrem
    have hzero : ((s.startSegment e.process).1.processes e.process).remainingTime = 0 := by
      show (Function.update s.processes e.process _ e.process).remainingTime = 0
      rw [Function.update_self]
      exact sub_self (s.processes e.process).remainingTime
    show (s.startSegment e.process).1.queueSegmentEnd e.process (s.startSegment e.process).2 false = _
    rw [SchedulerState.queueSegmentEnd, if_pos hzero, hrun]
    rfl
  have hevents := insertEvent_toSched (s.startSegment e.process).1.processes t.eventQueue
    { e with type := .completion, time := t.time + (t.processes e.process).burstTime }
    s.eventQueue h.eventQueue
  have harrivals := (enqueueEvent_arrivals (s.startSegment e.process).1.processes s.eventQueue
    ⟨s.currentTime + (s.processes e.process).burstTime, .completion e.process⟩ false rfl).length_eq
  rw [hdispatch]
  refine {
    eventQueue := ?_, running := rfl, waiting := h.waiting, head_le := h.head_le, waitingSize := h.waitingSize
    time := h.time, pid := fun r => ?_, burstTime := fun r => ?_, startTime := fun r => ?_
    finishTime := fun r => ?_, room := ?_, printed := h.printed }
  · refine hevents.trans ?_
    rw [hstop]
    rfl
  · exact (Table.modify_field Process.pid _ _ _ rfl r).trans (h.pid r)
  · exact (Table.modify_field Process.burstTime _ _ _ rfl r).trans (h.burstTime r)
  · rcases eq_or_ne r e.process with rfl | hr
    · refine (congrArg Process.startTime (Table.modify_self ..)).trans (h.time.trans ?_)
      show _ = (Function.update s.processes e.process _ e.process).startTime
      rw [Function.update_self]
    · refine (congrArg Process.startTime (Table.modify_of_ne hr ..)).trans ((h.startTime r).trans ?_)
      exact (congrArg Process.startTime (Function.update_of_ne hr ..)).symm
  · rcases eq_or_ne r e.process with rfl | hr
    · refine (congrArg Process.finishTime (Table.modify_self ..)).trans (hstop.trans ?_)
      show _ = (Function.update s.processes e.process _ e.process).finishTime
      rw [Function.update_self]
    · refine (congrArg Process.finishTime (Table.modify_of_ne hr ..)).trans ((h.finishTime r).trans ?_)
      exact (congrArg Process.finishTime (Function.update_of_ne hr ..)).symm
  · show t.waiting.length + (arrivals (enqueueEvent _ s.eventQueue _ false).items).length + 1 ≤ n
    rw [harrivals]
    exact hroom

theorem addWaiting (h : Follows w s t) (hspace : t.waiting.length < maxWaiting)
    (hroom : t.waiting.length + (arrivals s.eventQueue.items).length + t.running.toList.length < n) :
    ∃ t', t.addWaiting e = some t' ∧ Follows w (s.addWaiting e.process) t' := by
  have hdrop : (t.waiting ++ [e]).drop t.head = t.waiting.drop t.head ++ [e] :=
    List.drop_append_of_le_length h.head_le
  have hlength : (t.waiting ++ [e]).length = t.waiting.length + 1 := List.length_append
  refine ⟨_, dif_pos hspace, { h with
    waiting := ?_, head_le := hlength ▸ h.head_le.trans (Nat.le_succ _), waitingSize := ?_
    room := ?_ }⟩
  · rw [hdrop, List.map_append, h.waiting]
    rfl
  · rw [hdrop, List.length_append, h.waitingSize]
    rfl
  · show (t.waiting ++ [e]).length + (arrivals s.eventQueue.items).length +
      t.running.toList.length ≤ n
    rw [hlength]
    omega

theorem startNext (h : Follows w s t) (hidle : t.running = none)
    (hroom : t.waiting.length + (arrivals s.eventQueue.items).length + 1 ≤ n)
    (hnext : ∀ r ∈ Policy.members .fcfs s.waiting, (s.processes r).burstTime = w.burstTime r ∧
      (s.processes r).remainingTime = (s.processes r).burstTime) :
    ∃ t', t.startNext = some t' ∧ Follows w (s.dispatchNext false) t' := by
  have hrun : s.running = none := by rw [← h.running, hidle, Option.map_none]
  have hsize := h.waitingSize
  have hwaiting := h.waiting
  rcases s.dispatchNext_cases false with ⟨hnil, heq⟩ | ⟨p, waiting, hd, hmembers, heq⟩
  · rw [hnil, List.map_eq_nil_iff] at hwaiting
    rw [hwaiting, List.length_nil] at hsize
    refine ⟨t, if_neg (by omega), ?_⟩
    rw [heq]
    have hstopped := h.stopped
    rwa [← hidle] at hstopped
  · rw [hmembers] at hwaiting
    obtain ⟨e, rest, hdrop, rfl, hrest⟩ := List.map_eq_cons_iff.mp hwaiting
    have hget : t.waiting[t.head]? = some e := by
      rw [← List.head?_drop, hdrop, List.head?_cons]
    have hdrop' : t.waiting.drop (t.head + 1) = rest := by
      rw [← List.drop_drop, hdrop, List.drop_one, List.tail_cons]
    have hlt : t.head < t.waiting.length := (List.getElem?_eq_some_iff.mp hget).1
    rw [hdrop, List.length_cons] at hsize
    refine ⟨_, by rw [Simulator.startNext, if_pos (by omega), hget], ?_⟩
    rw [heq]
    have htaken : Follows w { s with waiting := waiting }
        { t with head := t.head + 1, waitingSize := t.waitingSize - 1 } :=
      { h with
        waiting := hdrop'.symm ▸ hrest
        head_le := hlt
        waitingSize := by
          show t.waitingSize - 1 = (t.waiting.drop (t.head + 1)).length
          rw [hdrop', hsize, Nat.add_sub_cancel] }
    obtain ⟨hburst, hrem⟩ := hnext e.process (hmembers ▸ List.mem_cons_self)
    exact htaken.start hburst hrem hroom

theorem round (hn : n ≤ maxWaiting + 1) (h : Follows w s t)
    (hc : SchedulerState.Coherent w s) {e' : Sched.Event n} (hq : s.eventQueue.items = e' :: q.items)
    (hround : SchedulerState.Round s e' q s') : ∃ t', t.loopBody = some t' ∧ Follows w s' t' := by
  obtain ⟨e, rest, ht, rfl, -⟩ := List.map_eq_cons_iff.mp (h.eventQueue.trans hq)
  have hroom := h.room
  have hlive : (arrivals s.eventQueue.items).length =
      (arrivals q.items).length + e.toSched.arrival?.toList.length := by
    rw [hq, arrivals, arrivals, List.filterMap_cons]
    cases e.toSched.arrival? <;> rfl
  cases hround with
  | start p he hrun =>
    obtain ⟨htype, rfl⟩ := Event.toSched_arrival he
    have hfree := hc.free_arrival hq he hrun
    have hfresh := hfree.unstarted Policy.fcfs_nonpreemptive (Multiset.mem_cons_self _ _)
    have hline : line w e.toSched = some (arrivedLine (w.processes e.process).pid e.time) := by
      rw [line, he, Event.toSched_time]
    have hpopped := h.popped ht hq hline
    rw [Event.arrival?, he, Option.toList_some, List.length_singleton] at hlive
    have hidle : t.running = none := by
      rw [← Option.map_eq_none_iff, h.running, hrun]
    refine ⟨_, ?_, hpopped.start (hc.recorded _).burstTime hfresh.2 ?_⟩
    · simp only [Simulator.loopBody, ht, htype, Simulator.handleArrival, Simulator.print, hidle,
        h.pid]
    · show t.waiting.length + (arrivals q.items).length + 1 ≤ n
      omega
  | wait p r he hrun hle =>
    obtain ⟨htype, rfl⟩ := Event.toSched_arrival he
    have hline : line w e.toSched = some (arrivedLine (w.processes e.process).pid e.time) := by
      rw [line, he, Event.toSched_time]
    have hpopped := h.popped ht hq hline
    rw [Event.arrival?, he, Option.toList_some, List.length_singleton] at hlive
    obtain ⟨running, hbusy, -⟩ := Option.map_eq_some_iff.mp (h.running.trans hrun)
    rw [hbusy, Option.toList_some, List.length_singleton] at hroom
    obtain ⟨t', hadd, hfollows⟩ := hpopped.addWaiting (e := e) (by
      show t.waiting.length < maxWaiting
      omega) (by
      show t.waiting.length + (arrivals q.items).length + t.running.toList.length < n
      rw [hbusy, Option.toList_some, List.length_singleton]
      omega)
    refine ⟨t', ?_, hfollows⟩
    rw [← hadd]
    simp only [Simulator.loopBody, ht, htype, Simulator.handleArrival, Simulator.print, hbusy, h.pid]
  | preempt p r he hrun hstcf hlt => exact absurd hstcf Bool.false_ne_true
  | complete p he hrun hrem =>
    obtain ⟨htype, rfl⟩ := Event.toSched_completion he
    have hfree := (hc.free_completion hq he).1
    have hline : line w e.toSched = some (completedLine (w.processes e.process).pid e.time) := by
      rw [line, he, Event.toSched_time]
    have hpopped := h.popped ht hq hline
    obtain ⟨running, hbusy, -⟩ := Option.map_eq_some_iff.mp (h.running.trans hrun)
    rw [hbusy, Option.toList_some, List.length_singleton] at hroom
    obtain ⟨t', hstart, hfollows⟩ := hpopped.stopped.startNext rfl (by
      show t.waiting.length + (arrivals q.items).length + 1 ≤ n
      omega) fun r hr => ⟨(hc.recorded r).burstTime,
        (hfree.unstarted Policy.fcfs_nonpreemptive hr).2⟩
    refine ⟨t', ?_, hfollows⟩
    rw [← hstart]
    simp only [Simulator.loopBody, ht, htype, Simulator.handleCompletion, Simulator.print, h.pid]
  | expire p he hrun hrem =>
    -- no segment of FCFS leaves anything over
    have hzero := hc.whole trivial p hrun
    omega

end Follows

theorem initializeArrivalEvents_toSched (w : Workload n) :
    (initializeArrivalEvents w.processes).map Event.toSched =
      (Sched.startState .fcfs w).eventQueue.items := by
  have hfold : ∀ (l : List (Fin n)) (s : Sched.SchedulerState .fcfs n) (q : List (Event n)),
      s.processes = w.processes → q.map Event.toSched = s.eventQueue.items →
      (l.foldl (fun q i => insertEvent q ⟨(w.processes i).arrivalTime, .arrival, i⟩) q).map
        Event.toSched = (s.queueArrivals l).eventQueue.items := by
    intro l
    induction l with
    | nil => exact fun _ _ _ h => h
    | cons p l ih =>
      intro s q hps hq
      rw [List.foldl_cons, SchedulerState.queueArrivals, List.foldl_cons, hps]
      exact ih _ _ hps (insertEvent_toSched s.processes q _ s.eventQueue hq)
  have hstart : Sched.startState .fcfs w =
      (Sched.initialState .fcfs w).queueArrivals (List.finRange n) := by
    unfold Sched.startState SchedulerState.initializeEvents
    dsimp only
    rw [if_neg (by decide)]
    rfl
  rw [hstart]
  exact hfold _ _ _ rfl rfl

theorem startState_follows {w : Workload n} (hw : w.Nonneg) :
    Follows w (Sched.startState .fcfs w) (startState w.processes) := by
  have h := SchedulerState.startState_starting hw .fcfs
  refine {
    eventQueue := initializeArrivalEvents_toSched w, running := h.running.symm
    waiting := h.waiting.symm, head_le := le_rfl, waitingSize := rfl, time := h.currentTime.symm
    pid := fun _ => rfl, burstTime := fun _ => rfl, startTime := fun p => ?_
    finishTime := fun p => ?_, room := ?_, printed := ?_ }
  · rw [h.processes]
    rfl
  · rw [h.processes]
    rfl
  · have hlength := h.arrivals.length_eq
    rw [List.length_reverse, List.length_finRange] at hlength
    exact (Nat.zero_add _).trans hlength |>.le
  · rw [h.handled]
    rfl

/-- With at most one process more than the array of waiting events has slots, the simulator returns
whichever algorithm it is given. It never indexes outside of the array, every process has the start
and finish times of FCFS, and what is printed tells the events of that run in their order. -/
theorem simulateScheduler_eq_fcfs {w : Workload n} (hw : w.Nonneg) (hn : n ≤ maxWaiting + 1)
    (algorithm : SchedulerState n → Int) :
    (∃ fuel t, simulateScheduler w algorithm fuel = some t) ∧
      ∀ fuel t fuel' s, simulateScheduler w algorithm fuel = some t →
        Sched.simulateScheduler .fcfs w fuel' = some s →
        (∀ p, (t.processes p).startTime = (s.processes p).startTime ∧
          (t.processes p).finishTime = (s.processes p).finishTime) ∧
        t.printed = s.handled.filterMap (line w) := by
  have hboost : Policy.fcfs.boostPeriod ≤ 0 := by decide
  obtain ⟨fuel, s, hs⟩ := SchedulerState.simulateScheduler_returns hw Policy.fcfs_valid hboost
  obtain ⟨a, hrun, rfl⟩ := Option.map_eq_some_iff.mp hs
  obtain ⟨b, hrun', hreach, hfollows⟩ : ∃ b,
      Loop.run Simulator.loopBody fuel (startState w.processes) = some b ∧
        Loop.Reaches SchedulerState.loopBody (Sched.startState .fcfs w) a ∧ Follows w a b :=
    Loop.run_lockstep
    (fun a b => Loop.Reaches SchedulerState.loopBody (Sched.startState .fcfs w) a ∧ Follows w a b)
    (fun a b hr hend => by
      have hnil := hr.2.eventQueue
      rw [SchedulerState.loopBody_eq_none.mp hend, List.map_eq_nil_iff] at hnil
      rw [Simulator.loopBody, hnil])
    (fun a b a' hr hb => by
      obtain ⟨hc, _, e, q, hq, hround⟩ :=
        SchedulerState.Reaches.round hw Policy.fcfs_valid hboost hr.1 hb
      obtain ⟨b', hb', hfollows⟩ := hr.2.round hn hc hq hround
      exact ⟨b', hb', hr.1.tail hb, hfollows⟩)
    ⟨.refl, startState_follows hw⟩ hrun
  have hempty : b.eventQueue = [] := by
    have hnil := hfollows.eventQueue
    rwa [SchedulerState.loopBody_eq_none.mp (Loop.run_reaches hrun).2, List.map_eq_nil_iff] at hnil
  refine ⟨⟨fuel, b, ?_⟩, fun f t f' s ht hs' => ?_⟩
  · rw [simulateScheduler, hrun', Option.filter_some, hempty]
    rfl
  · obtain ⟨ht', -⟩ := Option.filter_eq_some_iff.mp ht
    obtain rfl := Loop.run_unique hrun' ht'
    obtain ⟨a', ha', rfl⟩ := Option.map_eq_some_iff.mp hs'
    obtain rfl := Loop.run_unique hrun ha'
    have hc := SchedulerState.Reaches.coherent hw Policy.fcfs_valid hboost hreach
    rw [hc.finish_eq (Loop.run_reaches hrun).2]
    exact ⟨fun p => ⟨hfollows.startTime p, hfollows.finishTime p⟩, hfollows.printed⟩

theorem simulateScheduler_eq_fcfs_sample :
    (∃ fuel t, simulateScheduler sampleWorkload (fun _ => 0) fuel = some t) ∧
      ∀ fuel t fuel' s, simulateScheduler sampleWorkload (fun _ => 0) fuel = some t →
        Sched.simulateScheduler .fcfs sampleWorkload fuel' = some s →
        (∀ p, (t.processes p).startTime = (s.processes p).startTime ∧
          (t.processes p).finishTime = (s.processes p).finishTime) ∧
        t.printed = s.handled.filterMap (line sampleWorkload) :=
  simulateScheduler_eq_fcfs sampleWorkload_nonneg (by decide) _

end OsLab.Schedsim.EventSim
