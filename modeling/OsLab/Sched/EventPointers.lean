import OsLab.Foundation.Calls
import OsLab.Foundation.LinkedList
import OsLab.Sched.EventOrder

/-! `event-queue.c` with its nodes, which are the events themselves. The event list of a run of the
simulator is what the nodes hold after the calls that the run has made. -/

namespace OsLab.Sched

open LinkedQueue LinkedList

variable {n : Nat}

abbrev EventMemory (n : Nat) := Memory (Event n)

namespace EventMemory

/-- `construct_event` and then `enqueue_event`. -/
def enqueueEvent (malloc : Heap (Event n) → Addr) (ps : Table n) (s : EventMemory n)
    (event : Event n) (arrangeByRemainingTime : Bool) : Option (EventMemory n) :=
  s.insert malloc (stopsAt ps arrangeByRemainingTime event) event

def dequeueEvent (s : EventMemory n) : Option (Option Addr × EventMemory n) := s.detachHead

def destructEvent (s : EventMemory n) (event : Addr) : EventMemory n := s.free event

/-- The next event of the loop, with what it does to the node: it is read, and then it is freed.
The source frees it after the handler, which does not look at it. -/
def nextEvent (s : EventMemory n) : Option (Option (Event n) × EventMemory n) :=
  s.dequeueEvent.bind fun (event, s) =>
    match event with
    | none => some (none, s)
    | some a => (s.heap.lookup a).map fun node => (some node.value, s.destructEvent a)

def peekNextArrival (s : EventMemory n) : Option (Option (Event n)) :=
  s.find fun e => e.arrival?.isSome

def removeEventForProcess (s : EventMemory n) (process : Fin n) : Option (EventMemory n) :=
  s.removeFirst fun e => e.process == some process

end EventMemory

inductive EventCall (n : Nat) where
  | enqueue (event : Event n) (arrangeByRemainingTime : Bool)
  | next
  | peekArrival
  | remove (process : Fin n)
deriving DecidableEq

def EventMemory.call (s : EventMemory n) :
    (Heap (Event n) → Addr) × Table n × EventCall n → Option (Option (Event n) × EventMemory n)
  | (malloc, ps, .enqueue e arrange) => (s.enqueueEvent malloc ps e arrange).map (none, ·)
  | (_, _, .next) => s.nextEvent
  | (_, _, .peekArrival) => s.peekNextArrival.map (·, s)
  | (_, _, .remove p) => (s.removeEventForProcess p).map (none, ·)

def EventQueue.call (q : EventQueue n) : Table n × EventCall n → Option (Event n) × EventQueue n
  | (ps, .enqueue e arrange) => (none, enqueueEvent ps q e arrange)
  | (_, .next) =>
    match dequeueEvent q with
    | none => (none, q)
    | some (e, q) => (some e, q)
  | (_, .peekArrival) => (peekNextArrival q, q)
  | (_, .remove p) => (none, removeEventForProcess q p)

theorem EventQueue.call_ordered {q : EventQueue n} (h : TimeOrdered q.items)
    (c : Table n × EventCall n) : TimeOrdered (EventQueue.call q c).2.items := by
  obtain ⟨ps, c⟩ := c
  cases c with
  | enqueue e arrange => exact enqueueEvent_ordered ps e arrange h
  | next =>
    rw [EventQueue.call]
    cases hdequeue : dequeueEvent q with
    | none => exact h
    | some r =>
      rw [dequeueEvent_eq_some.mp hdequeue] at h
      exact h.of_cons
  | peekArrival => exact h
  | remove p => exact h.sublist List.eraseP_sublist

structure EventMemory.Represents (s : EventMemory n) (q : EventQueue n) : Prop where
  holds : s.Holds q
  ordered : TimeOrdered q.items

namespace EventMemory

variable {s : EventMemory n} {q : EventQueue n} {malloc : Heap (Event n) → Addr}

theorem represents_empty : EventMemory.Represents (.empty : EventMemory n) .empty :=
  ⟨Memory.holds_empty, .nil⟩

theorem nextEvent_spec (h : s.Holds q) (ps : Table n) : ∃ s',
    s.nextEvent = some ((EventQueue.call q (ps, .next)).1, s') ∧
      s'.Holds (EventQueue.call q (ps, .next)).2 := by
  rw [nextEvent, dequeueEvent, EventQueue.call]
  cases hdequeue : Sched.dequeueEvent q with
  | none =>
    rw [h.detachHead_none hdequeue]
    exact ⟨s, rfl, h⟩
  | some r =>
    obtain ⟨a, next, s', hdetach, hnode, _, hfree⟩ := h.detachHead hdequeue
    refine ⟨destructEvent s' a, ?_, hfree⟩
    simp only [hdetach, Option.bind_some, hnode, Option.map_some]

theorem Represents.call (h : s.Represents q) (hfresh : ∀ heap, malloc heap ∉ heap)
    (c : Table n × EventCall n) : ∃ s',
      s.call (malloc, c) = some ((EventQueue.call q c).1, s') ∧
        s'.Represents (EventQueue.call q c).2 := by
  have hordered := EventQueue.call_ordered h.ordered c
  obtain ⟨ps, c⟩ := c
  cases c with
  | enqueue e arrange =>
    obtain ⟨s', hinsert, hs'⟩ := h.holds.insert hfresh (stopsAt ps arrange e) e
    exact ⟨s', by rw [EventMemory.call, enqueueEvent, hinsert]; rfl, hs', hordered⟩
  | next =>
    obtain ⟨s', hnext, hs'⟩ := nextEvent_spec h.holds ps
    exact ⟨s', hnext, hs', hordered⟩
  | peekArrival =>
    exact ⟨s, by rw [EventMemory.call, peekNextArrival, h.holds.find]; rfl, h.holds, hordered⟩
  | remove p =>
    obtain ⟨s', hremove, hs'⟩ := h.holds.removeFirst fun e => e.process == some p
    exact ⟨s', by rw [EventMemory.call, removeEventForProcess, hremove]; rfl, hs', hordered⟩

theorem Represents.run (h : s.Represents q)
    {calls : List ((Heap (Event n) → Addr) × Table n × EventCall n)}
    (hfresh : ∀ c ∈ calls, ∀ heap, c.1 heap ∉ heap) : ∃ s',
      runCalls EventMemory.call s calls =
        some ((foldCalls EventQueue.call q (calls.map Prod.snd)).1, s') ∧
      s'.Represents (foldCalls EventQueue.call q (calls.map Prod.snd)).2 :=
  runCalls_refines (fun _ _ _ c h hfresh _ => Represents.call h hfresh c) h hfresh
    (admitsAll_true _ q _)

end EventMemory

def EventQueue.After (q : EventQueue n) (returned : List (Event n)) : Prop :=
  ∃ calls : List (Table n × EventCall n),
    (foldCalls EventQueue.call .empty calls).1.reduceOption = returned ∧
      (foldCalls EventQueue.call .empty calls).2 = q

theorem EventQueue.After.call {q : EventQueue n} {returned : List (Event n)} (h : q.After returned)
    (c : Table n × EventCall n) :
    (EventQueue.call q c).2.After (returned ++ (EventQueue.call q c).1.toList) := by
  obtain ⟨calls, hreturned, hqueue⟩ := h
  refine ⟨calls ++ [c], ?_, ?_⟩
  · rw [foldCalls_concat, List.reduceOption_append, hreturned, hqueue]
    cases (EventQueue.call q c).1 <;> rfl
  · rw [foldCalls_concat, hqueue]

theorem EventQueue.After.silent {q : EventQueue n} {returned : List (Event n)}
    (h : q.After returned) (c : Table n × EventCall n) (hnone : (EventQueue.call q c).1 = none) :
    (EventQueue.call q c).2.After returned := by
  have hcall := h.call c
  rwa [hnone, Option.toList_none, List.append_nil] at hcall

namespace SchedulerState

variable {pol : Policy} {w : Workload n} {s s' : SchedulerState pol n} {arrange : Bool}

theorem startState_after (pol : Policy) (w : Workload n) :
    (startState pol w).eventQueue.After (startState pol w).handled := by
  have hadd : ∀ (s : SchedulerState pol n) (e : Event n) (arrange : Bool),
      s.eventQueue.After s.handled →
      (s.addEvent e arrange).eventQueue.After (s.addEvent e arrange).handled :=
    fun s e arrange h => h.silent (s.processes, .enqueue e arrange) rfl
  exact startState_induction (fun _ s => s.eventQueue.After s.handled) ⟨[], rfl, rfl⟩
    (fun _ _ s _ _ _ h => hadd s _ _ h) fun _ _ s _ _ _ _ _ h => hadd s _ _ h

theorem Follows.after (hs : Follows arrange s s') (h : s.eventQueue.After s.handled) :
    s'.eventQueue.After s'.handled := by
  cases hs with
  | keep same =>
    rw [same.eventQueue, same.handled]
    exact h
  | dispatch p e running process ends time eventQueue handled currentTime enqueued remaining =>
    rw [eventQueue, handled]
    exact h.silent (s'.processes, .enqueue e arrange) rfl

/-- An iteration of the loop calls the queue at most three times: it takes the next event, may take
out that of the process that runs, and may queue one. -/
theorem loopBody_after (hb : s.loopBody = some s') (h : s.eventQueue.After s.handled) :
    s'.eventQueue.After s'.handled := by
  obtain ⟨e, q, hq, rfl⟩ := loopBody_eq_some hb
  obtain ⟨q', hq', hfollows⟩ := (s.popped e q).handleEvent_follows e
  have hnext : q.After (s.handled ++ [e]) := by
    have hcall := h.call (s.processes, .next)
    rw [EventQueue.call, dequeueEvent_eq_some.mpr hq] at hcall
    exact hcall
  refine hfollows.after (s := { s.popped e q with eventQueue := q' }) ?_
  rcases hq' with rfl | ⟨_, r, rfl⟩
  · exact hnext
  · exact hnext.silent (s.processes, .remove r) rfl

theorem Reaches.after (h : Loop.Reaches loopBody (startState pol w) s) :
    s.eventQueue.After s.handled :=
  h.invariant (fun s => s.eventQueue.After s.handled) (fun _ _ => loopBody_after)
    (startState_after pol w)

/-- The calls that a run has made can be made on nodes, wherever these are allocated: what they
return are the events that were handled, and the nodes hold those that are queued. -/
theorem Reaches.eventMemory (h : Loop.Reaches loopBody (startState pol w) s) :
    ∃ calls : List (Table n × EventCall n),
      ∀ run : List ((Heap (Event n) → Addr) × Table n × EventCall n), run.map Prod.snd = calls →
        (∀ c ∈ run, ∀ heap, c.1 heap ∉ heap) → ∃ results m,
          runCalls EventMemory.call .empty run = some (results, m) ∧
            results.reduceOption = s.handled ∧ m.Represents s.eventQueue := by
  obtain ⟨calls, hreturned, hqueue⟩ := Reaches.after h
  refine ⟨calls, fun run hcalls hfresh => ?_⟩
  obtain ⟨m, hrun, hm⟩ := EventMemory.represents_empty.run hfresh
  rw [hcalls] at hrun hm
  exact ⟨_, m, hrun, hreturned, hqueue ▸ hm⟩

end SchedulerState

end OsLab.Sched
