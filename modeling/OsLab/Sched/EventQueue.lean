import OsLab.Foundation.CountedList
import OsLab.Sched.Process

/-! The event queue of `data-structures/event-queue.c`: a linked list kept in order by
insertion, with a comparator that may read the live `remaining_time` of the processes. -/

namespace OsLab.Sched

variable {n : Nat}

/-- An event's type together with its process; only a priority boost carries none. -/
inductive EventType (n : Nat) where
  | arrival (process : Fin n)
  | completion (process : Fin n)
  | quantumExpire (process : Fin n)
  | priorityBoost
deriving DecidableEq, Repr

structure Event (n : Nat) where
  time : Int
  type : EventType n
deriving DecidableEq, Repr

def Event.process (e : Event n) : Option (Fin n) :=
  match e.type with
  | .arrival p => some p
  | .completion p => some p
  | .quantumExpire p => some p
  | .priorityBoost => none

def Event.arrival? (e : Event n) : Option (Fin n) :=
  match e.type with
  | .arrival p => some p
  | _ => none

def Event.endsSegment (e : Event n) : Bool :=
  match e.type with
  | .completion _ => true
  | .quantumExpire _ => true
  | _ => false

abbrev EventQueue (n : Nat) := CountedList (Event n)

/-- Where the loop of `enqueue_event` stops. Boosts have no process and are only ever queued
with the flag off. -/
def stopsAt (ps : Table n) (arrangeByRemainingTime : Bool) (event curr : Event n) : Bool :=
  if event.time < curr.time then true
  else
    arrangeByRemainingTime && event.time == curr.time &&
      match event.process, curr.process with
      | some p, some q => (ps p).remainingTime < (ps q).remainingTime
      | _, _ => false

def enqueueEvent (ps : Table n) (q : EventQueue n) (event : Event n)
    (arrangeByRemainingTime : Bool) : EventQueue n :=
  q.insert (stopsAt ps arrangeByRemainingTime event) event

def dequeueEvent (q : EventQueue n) : Option (Event n × EventQueue n) := q.popFront

def peekNextArrival (q : EventQueue n) : Option (Event n) :=
  q.items.find? fun e => e.arrival?.isSome

def removeEventForProcess (q : EventQueue n) (p : Fin n) : EventQueue n :=
  q.removeFirst fun e => e.process == some p

def TimeOrdered (events : List (Event n)) : Prop := events.Pairwise fun a b => a.time ≤ b.time

/-- The processes whose arrival event is among `events`. -/
def arrivals (events : List (Event n)) : List (Fin n) := events.filterMap Event.arrival?

/-- The events among `events` that end a segment. -/
def segmentEnds (events : List (Event n)) : List (Event n) := events.filter Event.endsSegment

/-- The priority boosts among `events`. -/
def boosts (events : List (Event n)) : List (Event n) :=
  events.filter fun e => e.type = .priorityBoost

theorem mem_arrivals {events : List (Event n)} {p : Fin n} :
    p ∈ arrivals events ↔ ∃ e ∈ events, e.type = .arrival p := by
  refine List.mem_filterMap.trans (exists_congr fun e => and_congr_right fun _ => ?_)
  unfold Event.arrival?
  split <;> simp_all

theorem stopsAt_le {ps : Table n} {arrange : Bool} {e c : Event n}
    (h : stopsAt ps arrange e c = true) : e.time ≤ c.time := by
  unfold stopsAt at h
  split at h
  · omega
  · simp only [Bool.and_eq_true, beq_iff_eq] at h
    omega

theorem not_stopsAt_le {ps : Table n} {arrange : Bool} {e c : Event n}
    (h : stopsAt ps arrange e c = false) : c.time ≤ e.time := by
  unfold stopsAt at h
  split at h
  · simp at h
  · omega

theorem enqueueEvent_ordered {q : EventQueue n} (ps : Table n) (e : Event n) (arrange : Bool)
    (h : TimeOrdered q.items) : TimeOrdered (enqueueEvent ps q e arrange).items := by
  have : IsTrans (Event n) fun a b => a.time ≤ b.time := ⟨fun _ _ _ => le_trans⟩
  unfold TimeOrdered at h ⊢
  exact pairwise_insertBefore (fun _ _ => not_stopsAt_le) (fun _ _ => stopsAt_le) h

@[simp] theorem mem_enqueueEvent {ps : Table n} {q : EventQueue n} {e e' : Event n} {arrange : Bool} :
    e' ∈ (enqueueEvent ps q e arrange).items ↔ e' = e ∨ e' ∈ q.items := mem_insertBefore

theorem enqueueEvent_arrivals (ps : Table n) (q : EventQueue n) (e : Event n) (arrange : Bool)
    (he : e.arrival? = none) :
    (arrivals (enqueueEvent ps q e arrange).items).Perm (arrivals q.items) := by
  have h := (insertBefore_perm (stopsAt ps arrange e) e q.items).filterMap Event.arrival?
  rwa [List.filterMap_cons_none he] at h

theorem enqueueEvent_arrival (ps : Table n) (q : EventQueue n) (e : Event n) (arrange : Bool)
    {p : Fin n} (he : e.arrival? = some p) :
    (arrivals (enqueueEvent ps q e arrange).items).Perm (p :: arrivals q.items) := by
  have h := (insertBefore_perm (stopsAt ps arrange e) e q.items).filterMap Event.arrival?
  rwa [List.filterMap_cons_some he] at h

theorem enqueueEvent_segmentEnds_nil (ps : Table n) (q : EventQueue n) (e : Event n)
    (arrange : Bool) (he : e.endsSegment = false) (hq : segmentEnds q.items = []) :
    segmentEnds (enqueueEvent ps q e arrange).items = [] := by
  rw [segmentEnds, List.filter_eq_nil_iff] at hq ⊢
  intro e' he'
  rcases mem_enqueueEvent.mp he' with rfl | he'
  · simp [he]
  · exact hq e' he'

theorem enqueueEvent_segmentEnds (ps : Table n) (q : EventQueue n) (e : Event n) (arrange : Bool)
    (he : e.endsSegment = true) (hq : segmentEnds q.items = []) :
    segmentEnds (enqueueEvent ps q e arrange).items = [e] := by
  have h := (insertBefore_perm (stopsAt ps arrange e) e q.items).filter Event.endsSegment
  rw [List.filter_cons_of_pos he] at h
  change List.Perm _ (e :: segmentEnds q.items) at h
  rw [hq] at h
  exact List.perm_singleton.mp h

theorem removeEventForProcess_spec {q : EventQueue n} {p : Fin n} {e : Event n}
    (hp : p ∉ arrivals q.items) (hends : segmentEnds q.items = [e]) (he : e.process = some p) :
    (removeEventForProcess q p).items.Sublist q.items ∧
      arrivals (removeEventForProcess q p).items = arrivals q.items ∧
      segmentEnds (removeEventForProcess q p).items = [] ∧
      boosts (removeEventForProcess q p).items = boosts q.items := by
  have hmem : e ∈ q.items := (List.mem_filter.mp (hends ▸ List.mem_singleton_self e)).1
  obtain ⟨a, l₁, l₂, _, ha, hsplit, herase⟩ :=
    List.exists_of_eraseP (p := fun e => e.process == some p) hmem (by simp [he])
  have hprocess : a.process = some p := by simpa using ha
  -- the event that is found has the process of an arrival or of a segment, and `p` has arrived
  have hend : a.endsSegment = true := by
    rw [hsplit, arrivals, List.mem_filterMap] at hp
    cases htype : a.type with
    | arrival r =>
      simp only [Event.process, htype, Option.some.injEq] at hprocess
      exact absurd ⟨a, by simp, by simp [Event.arrival?, htype, hprocess]⟩ hp
    | priorityBoost => simp [Event.process, htype] at hprocess
    | _ => simp [Event.endsSegment, htype]
  have harrival : a.arrival? = none := by
    cases htype : a.type <;> simp_all [Event.arrival?, Event.endsSegment]
  have hboost : ¬ a.type = .priorityBoost := by
    intro htype
    simp [Event.endsSegment, htype] at hend
  simp only [removeEventForProcess, CountedList.items_removeFirst, herase]
  refine ⟨by rw [hsplit]; exact (List.sublist_cons_self a l₂).append_left l₁, ?_, ?_, ?_⟩
  · simp only [arrivals, hsplit, List.filterMap_append, List.filterMap_cons, harrival]
  · simp only [segmentEnds, hsplit, List.filter_append, List.filter_cons_of_pos hend] at hends ⊢
    rw [List.append_eq_singleton_iff] at hends
    simp_all
  · simp only [boosts, hsplit, List.filter_append, List.filter_cons, hboost, decide_false,
      Bool.false_eq_true, if_false]

theorem dequeueEvent_eq_some {q q' : EventQueue n} {e : Event n} :
    dequeueEvent q = some (e, q') ↔ q.items = e :: q'.items := CountedList.popFront_eq_some

theorem dequeueEvent_eq_none {q : EventQueue n} : dequeueEvent q = none ↔ q.items = [] :=
  CountedList.popFront_eq_none

theorem peekNextArrival_mem {q : EventQueue n} {e : Event n} (h : peekNextArrival q = some e) :
    e ∈ q.items ∧ ∃ p, e.type = .arrival p := by
  refine ⟨List.mem_of_find?_eq_some h, ?_⟩
  have he := List.find?_some h
  unfold Event.arrival? at he
  split at he
  · exact ⟨_, by assumption⟩
  · simp at he

theorem peekNextArrival_le {q : EventQueue n} {e e' : Event n} {p : Fin n}
    (hq : TimeOrdered q.items) (h : peekNextArrival q = some e) (he' : e' ∈ q.items)
    (ha : e'.type = .arrival p) : e.time ≤ e'.time := by
  obtain ⟨_, as, bs, hsplit, has⟩ := List.find?_eq_some_iff_append.mp h
  have hmem : e' ∈ e :: bs := by
    rw [hsplit, List.mem_append] at he'
    refine he'.resolve_left fun hin => ?_
    have := has e' hin
    simp [Event.arrival?, ha] at this
  unfold TimeOrdered at hq
  rw [hsplit] at hq
  have hq' := (List.pairwise_append.mp hq).2.1
  rcases List.mem_cons.mp hmem with rfl | hin
  · exact le_rfl
  · exact List.rel_of_pairwise_cons hq' hin

theorem peekNextArrival_none {q : EventQueue n} (h : peekNextArrival q = none) {e : Event n}
    (he : e ∈ q.items) {p : Fin n} : e.type ≠ .arrival p := by
  intro ha
  have := List.find?_eq_none.mp h e he
  simp [Event.arrival?, ha] at this

end OsLab.Sched
