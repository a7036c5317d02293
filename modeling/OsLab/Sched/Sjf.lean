import OsLab.Foundation.Turns
import OsLab.Sched.Accounting
import OsLab.Sched.Rounds

/-! Shortest job first. With the flag for remaining times the arrivals of one moment are queued in
the order of their bursts, and so are the waiting processes. But the completion of a process has
no remaining time left when it is queued, so it is handled before the arrivals of its own moment:
the next process is then chosen without them. -/

namespace OsLab.Sched

variable {n : Nat} {pol : Policy} {w : Workload n}

/-- `a` arrives before `b`, or at the same time with no longer a burst. -/
def ArrivesFirst (w : Workload n) (a b : Fin n) : Prop :=
  w.arrivalTime a < w.arrivalTime b ∨
    w.arrivalTime a = w.arrivalTime b ∧ w.burstTime a ≤ w.burstTime b

theorem ArrivesFirst.trans {a b c : Fin n} (h : ArrivesFirst w a b) (h' : ArrivesFirst w b c) :
    ArrivesFirst w a c := by
  unfold ArrivesFirst at *
  omega

def Event.isArrivalOf (w : Workload n) (e : Event n) (p : Fin n) : Prop :=
  e.time = w.arrivalTime p ∧ e.type = .arrival p

/-- While nothing but arrivals is queued, the walk of `enqueue_event` keeps any order of theirs
that it is compatible with. -/
theorem insertBefore_arrivals {R : Fin n → Fin n → Prop} (htrans : ∀ a b c, R a b → R b c → R a c)
    {stop : Event n → Bool} {e : Event n} {p : Fin n} (he : e.type = .arrival p)
    {events : List (Event n)} (hevents : ∀ c ∈ events, ∃ a, c.type = .arrival a ∧
      (stop c = true → R p a) ∧ (stop c = false → R a p))
    (hsorted : (arrivals events).Pairwise R) :
    (arrivals (insertBefore stop e events)).Pairwise R := by
  induction events with
  | nil => simp [insertBefore, arrivals, Event.arrival?, he]
  | cons c events ih =>
    obtain ⟨a, htype, hstop, hpass⟩ := hevents c List.mem_cons_self
    rw [arrivals_cons_arrival htype] at hsorted
    obtain ⟨hfirst, hrest⟩ := List.pairwise_cons.mp hsorted
    rw [insertBefore]
    split_ifs with hc
    · -- the walk stops at `c`, which `p` precedes
      rw [arrivals_cons_arrival he, arrivals_cons_arrival htype]
      refine List.pairwise_cons.mpr ⟨fun b hb => ?_, hsorted⟩
      rcases List.mem_cons.mp hb with rfl | hb
      · exact hstop hc
      · exact htrans p a b (hstop hc) (hfirst b hb)
    · -- the walk passes `c`, and what it passes may stay before `p`
      rw [arrivals_cons_arrival htype]
      have hap : R a p := hpass (Bool.eq_false_iff.mpr hc)
      refine List.pairwise_cons.mpr ⟨fun b hb => ?_, ih (fun c' hc' => ?_) hrest⟩
      · have hperm := (insertBefore_perm stop e events).filterMap Event.arrival?
        have hhead : (e :: events).filterMap Event.arrival? = p :: arrivals events :=
          arrivals_cons_arrival he
        rw [hhead] at hperm
        rcases List.mem_cons.mp (hperm.mem_iff.mp hb) with rfl | hb
        · exact hap
        · exact hfirst b hb
      · exact hevents c' (List.mem_cons_of_mem c hc')

theorem insertBefore_arrivesFirst {p : Fin n} {events : List (Event n)}
    (hevents : ∀ e ∈ events, ∃ a, e.isArrivalOf w a)
    (hsorted : (arrivals events).Pairwise (ArrivesFirst w)) :
    (arrivals (insertBefore
      (stopsAt w.processes true ⟨w.arrivalTime p, .arrival p⟩)
      ⟨w.arrivalTime p, .arrival p⟩ events)).Pairwise (ArrivesFirst w) := by
  refine insertBefore_arrivals (fun _ _ _ => ArrivesFirst.trans) rfl (fun c hc => ?_) hsorted
  obtain ⟨a, htime, htype⟩ := hevents c hc
  have hstop : stopsAt w.processes true ⟨w.arrivalTime p, .arrival p⟩ c = true ↔
      w.arrivalTime p < w.arrivalTime a ∨
        w.arrivalTime p = w.arrivalTime a ∧ w.burstTime p < w.burstTime a := by
    simp only [stopsAt, Event.process, htime, htype, Workload.processes, constructProcess,
      Bool.true_and]
    split_ifs with hlt
    · exact iff_of_true rfl (.inl hlt)
    · simp only [Bool.and_eq_true, beq_iff_eq, hlt, false_or]
      exact and_congr_right fun _ => decide_eq_true_iff
  refine ⟨a, htype, fun hc => (hstop.mp hc).imp id fun h => ⟨h.1, h.2.le⟩, fun hc => ?_⟩
  have hnot := mt hstop.mpr (Bool.eq_false_iff.mp hc)
  unfold ArrivesFirst
  omega

namespace SchedulerState

theorem startState_arrivesFirst (pol : Policy) (hsort : pol.sortByBurstTime = true) :
    (arrivals (startState pol w).eventQueue.items).Pairwise (ArrivesFirst w) := by
  have hperiod := boostPeriod_of_sort hsort
  refine (startState_induction (fun _ s => (∀ e ∈ s.eventQueue.items, ∃ a, e.isArrivalOf w a) ∧
    (arrivals s.eventQueue.items).Pairwise (ArrivesFirst w)) ⟨?_, ?_⟩
    (fun _ p s hps _ _ ⟨hevents, hsorted⟩ => ⟨fun e he => ?_, ?_⟩)
    fun _ _ _ _ _ hboost => absurd hboost (by omega)).2
  · simp [initialState]
  · simp [initialState, arrivals]
  · rcases mem_enqueueEvent.mp he with rfl | he
    · exact ⟨p, rfl, rfl⟩
    · exact hevents e he
  · rw [hsort]
    show (arrivals (enqueueEvent s.processes s.eventQueue ⟨w.arrivalTime p, .arrival p⟩
      true).items).Pairwise _
    rw [hps]
    exact insertBefore_arrivesFirst hevents hsorted

theorem Round.arrivals {s s' : SchedulerState pol n} {e : Event n} {q : EventQueue n}
    (hc : Coherent w s) (hq : s.eventQueue.items = e :: q.items) (h : Round s e q s') :
    Sched.arrivals s'.eventQueue.items = Sched.arrivals q.items := by
  have hnext : ∀ (t : SchedulerState pol n), t.eventQueue = q →
      Sched.arrivals (t.dispatchNext pol.sortByBurstTime).eventQueue.items =
        Sched.arrivals q.items := by
    rintro t rfl
    obtain ⟨_, heq⟩ | ⟨p, waiting, _, _, heq⟩ := t.dispatchNext_cases pol.sortByBurstTime
    · rw [heq]
    · rw [heq, dispatch_arrivals]
  cases h with
  | start p he hrun => exact dispatch_arrivals _ p _
  | wait p r he hrun hle => rfl
  | preempt p r he hrun hstcf hlt =>
    rw [dispatch_arrivals]
    have hends : segmentEnds q.items = [s.segmentEnd r] := by
      have hends := hc.ends_popped hq (by rw [Event.endsSegment, he])
      rwa [hrun] at hends
    have hnot : r ∉ Sched.arrivals q.items := by
      intro hr
      apply hc.cpu.notMem_pending_of_running hrun
      show r ∈ (Sched.arrivals s.eventQueue.items : Multiset (Fin n))
      rw [hq, arrivals_cons_arrival he]
      exact List.mem_cons_of_mem p hr
    exact (removeEventForProcess_spec hnot hends (s.segmentEnd_process r)).2.1
  | complete p he hrun hrem => exact hnext _ rfl
  | expire p he hrun hrem => exact hnext _ rfl

theorem Reaches.arrivesFirst (hw : w.Nonneg) (hpol : pol.Valid) (hsort : pol.sortByBurstTime = true)
    {s : SchedulerState pol n} (h : Loop.Reaches loopBody (startState pol w) s) :
    (arrivals s.eventQueue.items).Pairwise (ArrivesFirst w) := by
  have hboost : pol.boostPeriod ≤ 0 := by
    cases pol <;> simp_all [Policy.sortByBurstTime, Policy.boostPeriod]
  refine Reaches.induction hw hpol hboost
    (fun s => (arrivals s.eventQueue.items).Pairwise (ArrivesFirst w))
    (startState_arrivesFirst pol hsort) (fun s e q s' hc _ hq hround hsorted => ?_) h
  rw [hround.arrivals hc hq]
  rw [hq] at hsorted
  cases he : e.arrival? with
  | none =>
    rwa [arrivals, List.filterMap_cons_none he] at hsorted
  | some p =>
    rw [arrivals, List.filterMap_cons_some he] at hsorted
    exact hsorted.of_cons

/-- Every dispatch takes a process that is no longer than any other that has arrived by then and
has not been dispatched before. -/
def ShortestPicked (w : Workload n) (s : SchedulerState pol n) : Prop :=
  EachTurn (fun pre d => ∀ a, w.arrivalTime a ≤ d.time → (∀ d' ∈ pre, d'.process ≠ a) →
    w.burstTime d.process ≤ w.burstTime a) s.dispatches

/-- If a completion is handled next, no arrival that is due at the same moment is shorter than the
first of the waiting processes. -/
def CompletionSafe (w : Workload n) (s : SchedulerState pol n) : Prop :=
  ∀ e q r, dequeueEvent s.eventQueue = some (e, q) → e.type = .completion r →
    ∀ p waiting, pol.dequeue s.waiting = some (p, waiting) →
      ∀ e' ∈ q.items, ∀ a, e'.type = .arrival a → e'.time = e.time → w.burstTime p ≤ w.burstTime a

/-- The dispatched process has to be compared with the waiting ones and with those that arrive at
this moment: all others have been dispatched before. -/
theorem Free.shortestPicked {s : SchedulerState pol n} {p : Fin n}
    (h : Free w s (p ::ₘ pol.members s.waiting))
    (hwaiting : ∀ a ∈ pol.members s.waiting, w.burstTime p ≤ w.burstTime a)
    (hdue : ∀ a ∈ Sched.arrivals s.eventQueue.items, w.arrivalTime a ≤ s.currentTime →
      w.burstTime p ≤ w.burstTime a)
    (hpicked : ShortestPicked w s) (arrange : Bool) : ShortestPicked w (s.dispatch p arrange) := by
  refine eachTurn_concat.mpr ⟨hpicked, fun a harrival hnew => ?_⟩
  by_cases hpending : a ∈ Sched.arrivals s.eventQueue.items
  · exact hdue a hpending harrival
  by_cases hready : a ∈ p ::ₘ (pol.members s.waiting : Multiset (Fin n))
  · rcases Multiset.mem_cons.mp hready with rfl | ha
    · exact le_rfl
    · exact hwaiting a ha
  · have hfinished := h.cpu.mem_finished hpending hready (by simp [view])
    obtain ⟨_, _, hd, hda⟩ := h.cpu.finished_done a hfinished
    obtain ⟨d, hmem, rfl⟩ := List.mem_map.mp hd
    exact absurd hda (hnew d hmem)

section Sjf

variable {s s' : SchedulerState .sjf n} {e : Event n} {q : EventQueue n}

def Sorted (w : Workload n) (s : SchedulerState .sjf n) : Prop :=
  (Policy.members .sjf s.waiting).Pairwise fun a b => w.burstTime a ≤ w.burstTime b

theorem Sorted.addWaiting (hburst : ∀ a, (s.processes a).burstTime = w.burstTime a)
    (h : Sorted w s) (p : Fin n) : Sorted w (s.addWaiting p) := by
  have : IsTrans (Fin n) fun a b => w.burstTime a ≤ w.burstTime b := ⟨fun _ _ _ => le_trans⟩
  refine pairwise_insertBefore (fun a _ ha => ?_) (fun a _ ha => ?_) h
  · simpa [hburst] using ha
  · simp only [hburst, Bool.not_eq_true', decide_eq_false_iff_not, not_le] at ha
    exact ha.le

theorem Sorted.round (hc : Coherent w s) (h : Sorted w s) (hround : Round s e q s') :
    Sorted w s' := by
  have hnext : ∀ t : SchedulerState .sjf n, Sorted w t → Sorted w (t.dispatchNext true) := by
    intro t ht
    obtain ⟨_, heq⟩ | ⟨p, waiting, _, hmem, heq⟩ := t.dispatchNext_cases true
    · rwa [heq]
    · rw [heq]
      unfold Sorted at ht
      rw [hmem] at ht
      exact ht.of_cons
  cases hround with
  | start p he hrun => exact h
  | wait p r he hrun hle =>
    exact Sorted.addWaiting (s := s.popped e q) (fun a => (hc.recorded a).burstTime) h p
  | preempt p r he hrun hstcf hlt => exact absurd hstcf (by decide)
  | complete p he hrun hrem => exact hnext _ h
  | expire p he hrun hrem => exact absurd (hc.whole trivial p hrun) hrem.ne'

theorem Reaches.sorted (hw : w.Nonneg) (h : Loop.Reaches loopBody (startState .sjf w) s) :
    Sorted w s := by
  refine Reaches.induction hw Policy.sjf_valid (by decide) (Sorted w) ?_ (fun _ _ _ _ hc _ _ hround hs =>
    hs.round hc hround) h
  show (Policy.members .sjf (startState .sjf w).waiting).Pairwise _
  rw [(startState_starting hw .sjf).waiting]
  exact List.Pairwise.nil

theorem Coherent.burst_le_of_arrival {p : Fin n} (hc : Coherent w s)
    (harrivals : (arrivals s.eventQueue.items).Pairwise (ArrivesFirst w))
    (hq : s.eventQueue.items = e :: q.items) (he : e.type = .arrival p) :
    ∀ a ∈ arrivals q.items, w.arrivalTime a ≤ e.time → w.burstTime p ≤ w.burstTime a := by
  intro a ha hle
  rw [hq, arrivals_cons_arrival he] at harrivals
  have htime := hc.arrival e (hq ▸ List.mem_cons_self) p he
  rcases List.rel_of_pairwise_cons harrivals ha with hlt | ⟨_, hburst⟩
  · omega
  · exact hburst

theorem ShortestPicked.round (hc : Coherent w s) (hsorted : Sorted w s)
    (harrivals : (arrivals s.eventQueue.items).Pairwise (ArrivesFirst w))
    (hq : s.eventQueue.items = e :: q.items) (hsafe : CompletionSafe w s)
    (h : ShortestPicked w s) (hround : Round s e q s') : ShortestPicked w s' := by
  cases hround with
  | start p he hrun =>
    have hwaiting := hc.idle hrun
    refine (hc.free_arrival hq he hrun).shortestPicked (fun a ha => ?_)
      (hc.burst_le_of_arrival harrivals hq he) h _
    exact absurd (hwaiting ▸ ha) List.not_mem_nil
  | wait p r he hrun hle => exact h
  | preempt p r he hrun hstcf hlt => exact absurd hstcf (by decide)
  | complete r he hrun hrem =>
    have hfree := (hc.free_completion hq he).1
    obtain ⟨_, heq⟩ | ⟨p, waiting, hd, hmem, heq⟩ :=
      dispatchNext_cases { s.popped e q with running := none } true
    · show ShortestPicked w (dispatchNext _ true)
      rw [heq]
      exact h
    · show ShortestPicked w (dispatchNext _ true)
      rw [heq]
      have hready : (Policy.members .sjf s.waiting : Multiset (Fin n)) =
          p ::ₘ Policy.members .sjf waiting := congrArg _ hmem
      rw [hready] at hfree
      have hfirst : (p :: Policy.members .sjf waiting).Pairwise fun a b =>
          w.burstTime a ≤ w.burstTime b := hmem ▸ hsorted
      refine (hfree.sameTimes (.refl _) none waiting).shortestPicked
        (fun a ha => List.rel_of_pairwise_cons hfirst ha) (fun a ha hle => ?_) h _
      -- an arrival that is still queued and due is due at this very moment
      obtain ⟨e', he', htype⟩ := mem_arrivals.mp ha
      have htime := hc.arrival e' (hq ▸ List.mem_cons_of_mem e he') a htype
      have hfuture := hc.toCore.le_of_mem hq (hq ▸ List.mem_cons_of_mem e he')
      refine hsafe e q r (dequeueEvent_eq_some.mpr hq) he p waiting hd e' he' a htype ?_
      exact le_antisymm (htime.trans_le hle) hfuture
  | expire p he hrun hrem => exact absurd (hc.whole trivial p hrun) hrem.ne'

theorem Coherent.completionSafe (hw : w.Nonneg) (hc : Coherent w s)
    (hnext : ∀ s', s.loopBody = some s' → ShortestPicked w s') : CompletionSafe w s := by
  intro e q r hdequeue he p waiting hd e' he' a htype htime
  have hq := dequeueEvent_eq_some.mp hdequeue
  have hbody : s.loopBody = some ((s.popped e q).handleCompletion) := by
    rw [loopBody_of_items hq, handleEvent_completion he]
  have hpicked := hnext _ hbody
  rw [hc.handleCompletion_eq hw hq he,
    dispatchNext_of_dequeue (s := { s.popped e q with running := none }) hd] at hpicked
  have harrival := hc.arrival e' (hq ▸ List.mem_cons_of_mem e he') a htype
  have hpending : a ∈ arrivals s.eventQueue.items :=
    mem_arrivals.mpr ⟨e', hq ▸ List.mem_cons_of_mem e he', htype⟩
  refine (eachTurn_concat.mp hpicked).2 a (harrival ▸ htime.le) fun d hd => ?_
  exact (hc.cpu.pending_fresh a hpending).2 d.segment (List.mem_map_of_mem hd)

end Sjf

end SchedulerState

open SchedulerState

/-- SJF picks the shortest of the arrived in all states of a run exactly if no completion on the
way overlooks a shorter process that arrives at its moment. -/
theorem sjf_shortestPicked_iff (hw : w.Nonneg) :
    (∀ s, Loop.Reaches loopBody (startState .sjf w) s → ShortestPicked w s) ↔
      ∀ s, Loop.Reaches loopBody (startState .sjf w) s → CompletionSafe w s := by
  constructor
  · intro h s hs
    exact (Reaches.coherent hw Policy.sjf_valid (by decide) hs).completionSafe hw fun s' hb =>
      h s' (hs.tail hb)
  · intro h s hs
    induction hs with
    | refl =>
      show EachTurn _ (startState .sjf w).dispatches
      rw [(startState_starting hw .sjf).dispatches]
      exact eachTurn_nil
    | tail hr hb ih =>
      obtain ⟨hc, _, e, q, hq, hround⟩ := Reaches.round hw Policy.sjf_valid (by decide) hr hb
      exact ih.round hc (Reaches.sorted hw hr) (Reaches.arrivesFirst hw Policy.sjf_valid rfl hr) hq
        (h _ hr) hround

/-- When `A` completes, both `B` and `C` are waiting. -/
def candidatesWorkload : Workload 3 where
  pid := ![['A'], ['B'], ['C']]
  arrivalTime := ![0, 1, 2]
  burstTime := ![5, 10, 1]

theorem sjf_shortestPicked_iff_candidates :
    (Loop.advance loopBody 4 (startState .sjf candidatesWorkload)).dispatches.map
        (fun d => (d.process, d.time)) = [(0, 0), (2, 5)] ∧
      ((∀ s, Loop.Reaches loopBody (startState .sjf candidatesWorkload) s →
          ShortestPicked candidatesWorkload s) ↔
        ∀ s, Loop.Reaches loopBody (startState .sjf candidatesWorkload) s →
          CompletionSafe candidatesWorkload s) :=
  ⟨by decide +kernel, sjf_shortestPicked_iff ⟨by decide, by decide⟩⟩

/-- `C` arrives at the moment at which `A` completes, while `B` waits. -/
def lateWorkload : Workload 3 where
  pid := ![['A'], ['B'], ['C']]
  arrivalTime := ![0, 1, 5]
  burstTime := ![5, 10, 1]

/-- The completion of `A` is handled before the arrival of `C`, and dispatches `B`. -/
theorem sjf_not_shortestPicked :
    lateWorkload.Nonneg ∧ (∀ p, 1 ≤ lateWorkload.burstTime p) ∧
      ∃ s, Loop.Reaches loopBody (startState .sjf lateWorkload) s ∧
        ¬ ShortestPicked lateWorkload s := by
  refine ⟨⟨by decide, by decide⟩, by decide,
    Loop.advance loopBody 3 (startState .sjf lateWorkload), Loop.reaches_advance .., ?_⟩
  have hrun : (Loop.advance loopBody 3 (startState .sjf lateWorkload)).dispatches.map
      (fun d => (d.process, d.time)) = [(0, 0), (1, 5)] := by decide +kernel
  obtain ⟨d₀, _, hsplit, hfirst, hrest⟩ := List.map_eq_cons_iff.mp hrun
  obtain ⟨d₁, _, rfl, hsecond, hnil⟩ := List.map_eq_cons_iff.mp hrest
  obtain rfl := List.map_eq_nil_iff.mp hnil
  intro h
  obtain ⟨hprocess, htime⟩ := Prod.mk.inj hsecond
  have hle := h [d₀] d₁ [] hsplit 2 (by rw [htime]; decide) fun d hd => by
    rw [List.mem_singleton.mp hd, (Prod.mk.inj hfirst).1]
    decide
  rw [hprocess] at hle
  exact absurd hle (by decide)

end OsLab.Sched
