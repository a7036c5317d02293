import OsLab.Sched.Runs

/-! The rounds of a run without boosts, by the event that is handled: what each of them makes of
the state, and the induction over a whole run. -/

namespace OsLab.Sched

variable {n : Nat} {pol : Policy}

namespace SchedulerState

variable {w : Workload n} {s s' : SchedulerState pol n} {e : Event n} {q : EventQueue n}

def HandlesNext (s : SchedulerState pol n) (type : EventType n) : Prop :=
  s.eventQueue.items.head?.map Event.type = some type

instance (s : SchedulerState pol n) (type : EventType n) : Decidable (s.HandlesNext type) :=
  inferInstanceAs (Decidable (_ = _))

theorem HandlesNext.exists_event {type : EventType n} (h : s.HandlesNext type) :
    ∃ (e : Event n) (q : EventQueue n), s.eventQueue.items = e :: q.items ∧ e.type = type := by
  obtain ⟨e, hhead, he⟩ := Option.map_eq_some_iff.mp h
  cases hd : dequeueEvent s.eventQueue with
  | none =>
    rw [dequeueEvent_eq_none.mp hd] at hhead
    exact absurd hhead.symm (Option.some_ne_none e)
  | some r =>
    have hitems := dequeueEvent_eq_some.mp hd
    rw [hitems] at hhead
    exact ⟨r.1, r.2, hitems, Option.some.inj hhead ▸ he⟩

/-- What the round that handles `e` makes of the state, `q` being the rest of the event queue. -/
inductive Round (s : SchedulerState pol n) (e : Event n) (q : EventQueue n) :
    SchedulerState pol n → Prop
  | start (p : Fin n) (he : e.type = .arrival p) (hrun : s.running = none) :
    Round s e q ((s.popped e q).dispatch p pol.sortByBurstTime)
  | wait (p r : Fin n) (he : e.type = .arrival p) (hrun : s.running = some r)
    (hle : pol.isStcf → (s.processes r).remainingTime ≤ (s.processes p).remainingTime) :
    Round s e q ((s.popped e q).addWaiting p)
  | preempt (p r : Fin n) (he : e.type = .arrival p) (hrun : s.running = some r)
    (hstcf : pol.isStcf) (hlt : (s.processes p).remainingTime < (s.processes r).remainingTime) :
    Round s e q ((s.preempted e q r).dispatch p pol.sortByBurstTime)
  | complete (p : Fin n) (he : e.type = .completion p) (hrun : s.running = some p)
    (hrem : (s.processes p).remainingTime = 0) :
    Round s e q ({ s.popped e q with running := none }.dispatchNext pol.sortByBurstTime)
  | expire (p : Fin n) (he : e.type = .quantumExpire p) (hrun : s.running = some p)
    (hrem : 0 < (s.processes p).remainingTime) :
    Round s e q (((s.popped e q).putBack p).dispatchNext pol.sortByBurstTime)

theorem Coherent.round_cases (hw : w.Nonneg) (hpol : pol.Valid) (h : Coherent w s)
    (hq : s.eventQueue.items = e :: q.items) (he : e.type ≠ .priorityBoost) :
    Round s e q ((s.popped e q).handleEvent e) := by
  unfold handleEvent
  cases htype : e.type with
  | arrival p =>
    cases hrun : s.running with
    | none =>
      have hround := Round.start (q := q) p htype hrun
      rwa [← handleArrival_eq_of_idle hrun] at hround
    | some r =>
      by_cases hpre : pol.isStcf ∧ (s.processes p).remainingTime < (s.processes r).remainingTime
      · have hround := Round.preempt (q := q) p r htype hrun hpre.1 hpre.2
        rwa [← handleArrival_eq_of_preempt hrun hpre] at hround
      · have hround := Round.wait (q := q) p r htype hrun fun hstcf =>
          not_lt.mp fun hlt => hpre ⟨hstcf, hlt⟩
        rwa [← handleArrival_eq_of_wait hrun hpre] at hround
  | completion p =>
    obtain ⟨hrun, hrem, _⟩ := h.of_completion hq htype
    dsimp only
    rw [h.handleCompletion_eq hw hq htype]
    exact .complete p htype hrun hrem
  | quantumExpire p =>
    obtain ⟨hrun, hrem, _⟩ := h.of_quantumExpire hq htype
    dsimp only
    rw [h.handleQuantumExpire_eq hw hpol hq htype]
    exact .expire p htype hrun hrem
  | priorityBoost => exact absurd htype he

theorem Reaches.round (hw : w.Nonneg) (hpol : pol.Valid) (hboost : pol.boostPeriod ≤ 0)
    (h : Loop.Reaches loopBody (startState pol w) s) (hb : s.loopBody = some s') :
    Coherent w s ∧ Coherent w s' ∧
      ∃ e q, s.eventQueue.items = e :: q.items ∧ Round s e q s' := by
  have hcoherent := Reaches.coherent hw hpol hboost h
  refine ⟨hcoherent, Reaches.coherent hw hpol hboost (h.tail hb), ?_⟩
  obtain ⟨e, q, hq, rfl⟩ := loopBody_eq_some hb
  have hmem : e ∈ s.eventQueue.items := hq ▸ List.mem_cons_self
  exact ⟨e, q, hq, hcoherent.round_cases hw hpol hq (Reaches.boosts hboost h e hmem)⟩

theorem Reaches.induction (hw : w.Nonneg) (hpol : pol.Valid) (hboost : pol.boostPeriod ≤ 0)
    (inv : SchedulerState pol n → Prop) (hstart : inv (startState pol w))
    (hround : ∀ s e q s', Coherent w s → Coherent w s' → s.eventQueue.items = e :: q.items →
      Round s e q s' → inv s → inv s')
    (h : Loop.Reaches loopBody (startState pol w) s) : inv s := by
  induction h with
  | refl => exact hstart
  | tail hr hb ih =>
    obtain ⟨hc, hc', e, q, hq, hr'⟩ := Reaches.round hw hpol hboost hr hb
    exact hround _ e q _ hc hc' hq hr' ih

section Dispatch

variable {p : Fin n} {arrange : Bool}

theorem dispatch_waiting (s : SchedulerState pol n) (p : Fin n) (arrange : Bool) :
    (s.dispatch p arrange).waiting = s.waiting := rfl

theorem dispatch_running (s : SchedulerState pol n) (p : Fin n) (arrange : Bool) :
    (s.dispatch p arrange).running = some p := rfl

theorem dispatch_dispatches (s : SchedulerState pol n) (p : Fin n) (arrange : Bool) :
    (s.dispatch p arrange).dispatches =
      s.dispatches ++ [⟨p, s.currentTime, s.runTime p, s.processes p, s.eventQueue⟩] := rfl

theorem dispatch_process_of_ne (s : SchedulerState pol n) {p a : Fin n} (ha : a ≠ p)
    (arrange : Bool) : (s.dispatch p arrange).processes a = s.processes a :=
  Function.update_of_ne ha ..

theorem dispatch_eventQueue (s : SchedulerState pol n) (p : Fin n) (arrange : Bool) :
    ∃ ps e, e.endsSegment = true ∧
      (s.dispatch p arrange).eventQueue = enqueueEvent ps s.eventQueue e arrange := by
  refine ⟨_, _, ?_, rfl⟩
  dsimp only
  unfold Event.endsSegment
  split_ifs <;> rfl

end Dispatch

def dispatched (s : SchedulerState pol n) : List (Fin n) :=
  s.dispatches.map Dispatch.process

theorem dispatch_dispatched (s : SchedulerState pol n) (p : Fin n) (arrange : Bool) :
    (s.dispatch p arrange).dispatched = s.dispatched ++ [p] := by
  rw [dispatched, dispatch_dispatches, List.map_append]
  rfl

theorem mem_dispatched_iff {p : Fin n} :
    p ∈ s.dispatched ↔ ∃ d ∈ s.log, d.process = p := by
  simp [dispatched, log, Dispatch.segment]

theorem Round.dispatched_cases (hround : Round s e q s') : s'.dispatched = s.dispatched ∨
    ∃ p, s'.dispatched = s.dispatched ++ [p] ∧ s'.running = some p := by
  have hnext : ∀ a : SchedulerState pol n, a.dispatched = s.dispatched → ∀ arrange,
      (a.dispatchNext arrange).dispatched = s.dispatched ∨
        ∃ p, (a.dispatchNext arrange).dispatched = s.dispatched ++ [p] ∧
          (a.dispatchNext arrange).running = some p := by
    intro a ha arrange
    rcases a.dispatchNext_cases arrange with ⟨_, heq⟩ | ⟨p, waiting, _, _, heq⟩
    · left
      rw [heq]
      exact ha
    · right
      refine ⟨p, ?_, by rw [heq, dispatch_running]⟩
      rw [heq, ← ha]
      exact dispatch_dispatched { a with waiting := waiting } p arrange
  cases hround with
  | start p he hrun => exact .inr ⟨p, dispatch_dispatched (s.popped e q) p _, rfl⟩
  | wait p r he hrun hle => exact .inl rfl
  | preempt p r he hrun hstcf hlt => exact .inr ⟨p, dispatch_dispatched (s.preempted e q r) p _, rfl⟩
  | complete p he hrun hrem => exact hnext { s.popped e q with running := none } rfl _
  | expire p he hrun hrem => exact hnext ((s.popped e q).putBack p) rfl _

end SchedulerState

theorem arrivals_insertBefore (stop : Event n → Bool) {e : Event n} (he : e.arrival? = none)
    (events : List (Event n)) : arrivals (insertBefore stop e events) = arrivals events := by
  induction events with
  | nil => simp [insertBefore, arrivals, he]
  | cons c events ih =>
    rw [insertBefore]
    split
    · rw [arrivals, List.filterMap_cons_none he, arrivals]
    · rw [arrivals, List.filterMap_cons, arrivals, List.filterMap_cons]
      unfold arrivals at ih
      rw [ih]

theorem enqueueEvent_arrivals_eq (ps : Table n) (q : EventQueue n) {e : Event n} (arrange : Bool)
    (he : e.endsSegment = true) : arrivals (enqueueEvent ps q e arrange).items = arrivals q.items := by
  refine arrivals_insertBefore _ ?_ q.items
  unfold Event.endsSegment at he
  unfold Event.arrival?
  cases htype : e.type <;> simp_all

theorem arrivals_cons_arrival {e : Event n} {events : List (Event n)} {p : Fin n}
    (he : e.type = .arrival p) : arrivals (e :: events) = p :: arrivals events := by
  rw [arrivals, List.filterMap_cons_some (by rw [Event.arrival?, he]), arrivals]

theorem SchedulerState.dispatch_arrivals (s : SchedulerState pol n) (p : Fin n) (arrange : Bool) :
    arrivals (s.dispatch p arrange).eventQueue.items = arrivals s.eventQueue.items := by
  obtain ⟨ps, e, he, heq⟩ := s.dispatch_eventQueue p arrange
  rw [heq, enqueueEvent_arrivals_eq ps s.eventQueue arrange he]

end OsLab.Sched
