import OsLab.Sched.History

/-! Each round of the event loop is a sequence of steps of the abstract CPU. The exception is a
priority boost that finds an unfinished process running: it dispatches again while the end of
the interrupted segment stays queued. -/

namespace OsLab.Sched

variable {n : Nat} {pol : Policy}

namespace SchedulerState

variable {w : Workload n} {s s' : SchedulerState pol n} {p : Fin n}

/-- The state in which the handler of `e` starts, `q` being the rest of the event queue. -/
def popped (s : SchedulerState pol n) (e : Event n) (q : EventQueue n) : SchedulerState pol n :=
  { s with eventQueue := q, currentTime := e.time, handled := s.handled ++ [e] }

theorem loopBody_eq_some (hb : s.loopBody = some s') :
    ∃ e q, s.eventQueue.items = e :: q.items ∧ s' = (s.popped e q).handleEvent e := by
  unfold loopBody at hb
  split at hb
  · simp at hb
  · rename_i e q hq
    exact ⟨e, q, dequeueEvent_eq_some.mp hq, (Option.some.inj hb).symm⟩

theorem loopBody_eq_none : s.loopBody = none ↔ s.eventQueue.items = [] := by
  rw [← dequeueEvent_eq_none, loopBody]
  split <;> simp_all

theorem loopBody_of_items {e : Event n} {q : EventQueue n} (hq : s.eventQueue.items = e :: q.items) :
    s.loopBody = some ((s.popped e q).handleEvent e) := by
  simp only [loopBody, dequeueEvent_eq_some.mpr hq]
  rfl

section HandleEvent

variable {e : Event n}

theorem handleEvent_arrival (he : e.type = .arrival p) : s.handleEvent e = s.handleArrival p := by
  rw [handleEvent, he]

theorem handleEvent_completion (he : e.type = .completion p) :
    s.handleEvent e = s.handleCompletion := by
  rw [handleEvent, he]

theorem handleEvent_quantumExpire (he : e.type = .quantumExpire p) :
    s.handleEvent e = s.handleQuantumExpire := by
  rw [handleEvent, he]

theorem handleEvent_priorityBoost (he : e.type = .priorityBoost) :
    s.handleEvent e = s.handlePriorityBoost := by
  rw [handleEvent, he]

end HandleEvent

/-- A boost about to be handled finds no process running, or one that is about to complete. -/
def BoostSafe (s : SchedulerState pol n) : Prop :=
  ∀ e q, dequeueEvent s.eventQueue = some (e, q) → e.type = .priorityBoost →
    ∀ p, s.running = some p → (s.processes p).remainingTime = 0

instance (s : SchedulerState pol n) : Decidable s.BoostSafe :=
  decidable_of_iff
    (∀ r ∈ dequeueEvent s.eventQueue, r.1.type = .priorityBoost →
      ∀ p ∈ s.running, (s.processes p).remainingTime = 0)
    ⟨fun h e q hq => h (e, q) hq, fun h r hr => h r.1 r.2 hr⟩

section Popped

variable {e : Event n} {q : EventQueue n}

theorem Core.popped (h : Core w s) (hq : s.eventQueue.items = e :: q.items) :
    Core w (s.popped e q) where
  ordered := (hq ▸ h.ordered : TimeOrdered (e :: q.items)).of_cons
  future _ he' := List.rel_of_pairwise_cons (hq ▸ h.ordered : TimeOrdered (e :: q.items)) he'
  arrival e' he' := h.arrival e' (hq ▸ List.mem_cons_of_mem e he')
  recorded p := ⟨(h.recorded p).arrivalTime, (h.recorded p).burstTime, (h.recorded p).startTime,
    (h.recorded p).finishTime⟩

theorem Core.sublist (h : Core w s) (hq : q.items.Sublist s.eventQueue.items) :
    Core w { s with eventQueue := q } where
  ordered := h.ordered.sublist hq
  future e' he' := h.future e' (hq.subset he')
  arrival e' he' := h.arrival e' (hq.subset he')
  recorded p := ⟨(h.recorded p).arrivalTime, (h.recorded p).burstTime, (h.recorded p).startTime,
    (h.recorded p).finishTime⟩

theorem Core.le_of_mem (h : Core w s) (hq : s.eventQueue.items = e :: q.items) {e' : Event n}
    (he' : e' ∈ s.eventQueue.items) : e.time ≤ e'.time := by
  rw [hq] at he'
  rcases List.mem_cons.mp he' with rfl | he'
  · exact le_rfl
  · exact List.rel_of_pairwise_cons (hq ▸ h.ordered : TimeOrdered (e :: q.items)) he'

theorem Coherent.segmentEnds_eq (h : Coherent w s) (hp : s.running = some p) :
    segmentEnds s.eventQueue.items = [s.segmentEnd p] := by
  rw [h.ends, hp]
  rfl

theorem Coherent.segmentEnd_mem (h : Coherent w s) (hp : s.running = some p) :
    s.segmentEnd p ∈ s.eventQueue.items :=
  (List.mem_filter.mp (h.segmentEnds_eq hp ▸ List.mem_singleton_self _)).1

theorem Coherent.advance (h : Coherent w s) (hq : s.eventQueue.items = e :: q.items) :
    Cpu.Step w.arrivalTime s.cpu { s.cpu with now := e.time } := by
  refine .advance e.time (h.future e (hq ▸ List.mem_cons_self)) (fun p hp => ?_) (fun hne => ?_)
    fun hnone => ?_
  · obtain ⟨e', he', htype⟩ := mem_arrivals.mp hp
    exact (h.toCore.le_of_mem hq he').trans (h.arrival e' he' p htype).le
  · obtain ⟨p, hp⟩ := Option.ne_none_iff_exists'.mp hne
    exact h.toCore.le_of_mem hq (h.segmentEnd_mem hp)
  · exact congrArg _ (h.idle hnone)

theorem Coherent.of_endsSegment (h : Coherent w s) (hq : s.eventQueue.items = e :: q.items)
    (he : e.endsSegment = true) :
    ∃ p, s.running = some p ∧ e = s.segmentEnd p ∧ segmentEnds q.items = [] := by
  have hends := h.ends
  rw [hq, segmentEnds, List.filter_cons_of_pos he] at hends
  cases hrun : s.running with
  | none => simp [hrun] at hends
  | some p =>
    rw [hrun] at hends
    obtain ⟨he, hrest⟩ := List.cons.inj hends
    exact ⟨p, rfl, he, hrest⟩

theorem Coherent.ends_popped (h : Coherent w s) (hq : s.eventQueue.items = e :: q.items)
    (he : e.endsSegment = false) :
    segmentEnds q.items = s.running.toList.map s.segmentEnd := by
  rw [← h.ends, hq]
  exact (List.filter_cons_of_neg (by simp [he])).symm

theorem Coherent.arrive (h : Coherent w s) (hq : s.eventQueue.items = e :: q.items)
    (he : e.type = .arrival p) :
    Cpu.Step w.arrivalTime { s.cpu with now := e.time }
        ((s.popped e q).view s.running (p ::ₘ pol.members s.waiting)) ∧
      ((s.popped e q).view s.running (p ::ₘ pol.members s.waiting)).progress <
        ({ s.cpu with now := e.time } : Cpu (Fin n)).progress := by
  have hpending : (arrivals s.eventQueue.items : Multiset (Fin n)) = p ::ₘ arrivals q.items := by
    have harrival : e.arrival? = some p := by rw [Event.arrival?, he]
    rw [hq, arrivals, List.filterMap_cons_some harrival]
    rfl
  have hview : (s.popped e q).view s.running (p ::ₘ pol.members s.waiting) =
      { s.cpu with
        now := e.time
        pending := arrivals q.items
        ready := p ::ₘ pol.members s.waiting } := by
    unfold view SchedulerState.popped completed
    simp only [List.filterMap_append, Event.completion?, he, List.filterMap_cons, List.filterMap_nil,
      List.append_nil]
    rfl
  rw [hview]
  have harrival := h.arrival e (hq ▸ List.mem_cons_self) p he
  exact ⟨.arrive p _ hpending harrival.symm, Cpu.progress_arrive hpending _⟩

theorem popped_arrivals (hq : s.eventQueue.items = e :: q.items) (ha : e.arrival? = none) :
    arrivals q.items = arrivals s.eventQueue.items := by
  rw [hq, arrivals, arrivals, List.filterMap_cons_none ha]

theorem popped_view (hq : s.eventQueue.items = e :: q.items) (ha : e.arrival? = none)
    (hc : e.completion? = none) (running : Option (Fin n)) (ready : Multiset (Fin n)) :
    (s.popped e q).view running ready =
      { s.view running ready with now := e.time } := by
  unfold view SchedulerState.popped completed
  simp only [hq, List.filterMap_append, arrivals, List.filterMap_cons, ha, hc, List.filterMap_nil,
    List.append_nil]
  rfl

end Popped

def dispatchNext (s : SchedulerState pol n) (arrange : Bool) : SchedulerState pol n :=
  if 0 < pol.size s.waiting then
    match pol.dequeue s.waiting with
    | some (p, waiting) => { s with waiting := waiting }.dispatch p arrange
    | none => { s with running := none }
  else { s with running := none }

theorem dispatchNext_of_empty (h : pol.members s.waiting = []) (arrange : Bool) :
    s.dispatchNext arrange = { s with running := none } := by
  rw [dispatchNext, if_neg (by rw [Policy.size_eq, h]; simp)]

theorem dispatchNext_of_dequeue {waiting : pol.Queue n}
    (h : pol.dequeue s.waiting = some (p, waiting)) (arrange : Bool) :
    s.dispatchNext arrange = { s with waiting := waiting }.dispatch p arrange := by
  have hsize : 0 < pol.size s.waiting := by
    rw [Policy.size_pos_iff, Policy.dequeue_members h]
    simp
  simp only [dispatchNext, if_pos hsize, h]

theorem dispatchNext_cases (s : SchedulerState pol n) (arrange : Bool) :
    (pol.members s.waiting = [] ∧ s.dispatchNext arrange = { s with running := none }) ∨
      ∃ p waiting, pol.dequeue s.waiting = some (p, waiting) ∧
        pol.members s.waiting = p :: pol.members waiting ∧
        s.dispatchNext arrange = { s with waiting := waiting }.dispatch p arrange := by
  cases hd : pol.dequeue s.waiting with
  | none =>
    have hnil := Policy.dequeue_eq_none.mp hd
    exact .inl ⟨hnil, dispatchNext_of_empty hnil arrange⟩
  | some r =>
    obtain ⟨p, waiting⟩ := r
    exact .inr ⟨p, waiting, rfl, Policy.dequeue_members hd, dispatchNext_of_dequeue hd arrange⟩

theorem Free.idle {ready : Multiset (Fin n)} (h : Free w s ready)
    (hready : ready = pol.members s.waiting) (hnil : pol.members s.waiting = []) :
    Coherent w { s with running := none } where
  toCore := h.toCore.sameTimes (.refl _) none s.waiting
  cpu := by
    have hcpu := h.cpu
    rw [hready] at hcpu
    exact hcpu
  ends := h.ends
  idle _ := hnil
  preemption _ p hp := absurd hp.symm (Option.some_ne_none p)
  whole _ p hp := absurd hp.symm (Option.some_ne_none p)
  fresh hnon p hp := h.fresh hnon p (hready ▸ hp)

theorem Free.dispatch_next {ready : Multiset (Fin n)} (hw : w.Nonneg) (hpol : pol.Valid)
    (h : Free w s ready) (hready : ready = pol.members s.waiting) (arrange : Bool) :
    Coherent w (s.dispatchNext arrange) ∧
      Cpu.Steps w.arrivalTime (s.view none ready) (s.dispatchNext arrange).cpu ∧
      (ready ≠ 0 → (s.dispatchNext arrange).cpu.progress < (s.view none ready).progress) := by
  obtain ⟨hnil, heq⟩ | ⟨p, waiting, _, hmembers, heq⟩ := s.dispatchNext_cases arrange
  · rw [heq]
    refine ⟨h.idle hready hnil, hready ▸ .refl, fun hne => absurd ?_ hne⟩
    rw [hready, hnil]
    rfl
  · have hfree := h.sameTimes (.refl s.processes) s.running waiting
    have hmem : ready = p ::ₘ pol.members waiting := by
      rw [hready, hmembers]
      rfl
    obtain ⟨hcoherent, hstep, hlt⟩ := hfree.dispatch hw hpol hmem arrange
    rw [heq]
    exact ⟨hcoherent, .single hstep, fun _ => hlt⟩

section Arrival

variable {e : Event n} {q : EventQueue n}

theorem Coherent.fresh_arrival (h : Coherent w s) (hq : s.eventQueue.items = e :: q.items)
    (he : e.type = .arrival p) : ∀ d ∈ s.log, d.process ≠ p := by
  have hp : p ∈ arrivals s.eventQueue.items := mem_arrivals.mpr ⟨e, hq ▸ List.mem_cons_self, he⟩
  exact (h.cpu.pending_fresh p hp).2

theorem Coherent.free_arrival (h : Coherent w s) (hq : s.eventQueue.items = e :: q.items)
    (he : e.type = .arrival p) (hrun : s.running = none) :
    Free w (s.popped e q) (p ::ₘ pol.members s.waiting) where
  toCore := h.toCore.popped hq
  cpu := by
    have hinv := h.cpu.steps (.tail (.single (h.advance hq)) (h.arrive hq he).1)
    rw [hrun] at hinv
    exact hinv
  ends := by
    have hends := h.ends_popped hq (by rw [Event.endsSegment, he])
    rwa [hrun] at hends
  fresh _ r hr d hd := by
    rw [h.idle hrun] at hr
    rw [Multiset.mem_singleton.mp hr]
    exact h.fresh_arrival hq he d hd

theorem handleArrival_idle (hw : w.Nonneg) (hpol : pol.Valid) (h : Coherent w s)
    (hq : s.eventQueue.items = e :: q.items) (he : e.type = .arrival p) (hrun : s.running = none) :
    Coherent w ((s.popped e q).dispatch p pol.sortByBurstTime) ∧
      Cpu.Steps w.arrivalTime ((s.popped e q).view s.running (p ::ₘ pol.members s.waiting))
        ((s.popped e q).dispatch p pol.sortByBurstTime).cpu := by
  obtain ⟨hcoherent, hstep, _⟩ :=
    (h.free_arrival hq he hrun).dispatch hw hpol rfl pol.sortByBurstTime
  rw [hrun]
  exact ⟨hcoherent, .single hstep⟩

theorem handleArrival_wait (h : Coherent w s) (hq : s.eventQueue.items = e :: q.items)
    (he : e.type = .arrival p) {r : Fin n} (hrun : s.running = some r) :
    Coherent w ((s.popped e q).addWaiting p) ∧
      ((s.popped e q).addWaiting p).cpu =
        (s.popped e q).view s.running (p ::ₘ pol.members s.waiting) := by
  have hps := pol.enqueue_sameTimes (s.popped e q).processes s.waiting p
  have hmem := pol.enqueue_members (s.popped e q).processes s.waiting p
  have hcpu : ((s.popped e q).addWaiting p).cpu =
      (s.popped e q).view s.running (p ::ₘ pol.members s.waiting) := by
    rw [cpu, addWaiting_members, addWaiting_view]
    rfl
  have hinv := h.cpu.steps (.tail (.single (h.advance hq)) (h.arrive hq he).1)
  refine ⟨?_, hcpu⟩
  refine { (h.toCore.popped hq).addWaiting p with
    cpu := hcpu ▸ hinv, ends := ?_, idle := ?_, preemption := ?_, whole := ?_, fresh := ?_ }
  · have hends := h.ends_popped hq (by rw [Event.endsSegment, he])
    have hend : ((s.popped e q).addWaiting p).segmentEnd = s.segmentEnd :=
      funext fun a => segmentEnd_sameTimes hps a
    rw [hend]
    exact hends
  · exact fun hnone => absurd (hrun.symm.trans hnone) (Option.some_ne_none r)
  · intro hstcf a ha hrem b hb
    refine h.preemption hstcf a ha (hrem.trans_eq (hps.remainingTime a)) b ?_
    rw [hq, arrivals, List.filterMap_cons]
    split
    · exact hb
    · exact List.mem_cons_of_mem _ hb
  · exact fun hnon a ha => (hps.remainingTime a).trans (h.whole hnon a ha)
  · intro hnon a ha d hd
    rcases List.mem_cons.mp (hmem.mem_iff.mp ha) with rfl | ha
    · exact h.fresh_arrival hq he d hd
    · exact h.fresh hnon a ha d hd

/-- The state in which a preempted process waits again, its segment no longer being queued. -/
def preempted (s : SchedulerState pol n) (e : Event n) (q : EventQueue n) (r : Fin n) :
    SchedulerState pol n :=
  { s.popped e q with eventQueue := removeEventForProcess q r }.addWaiting r

theorem Coherent.free_preempted (h : Coherent w s) (hq : s.eventQueue.items = e :: q.items)
    (he : e.type = .arrival p) {r : Fin n} (hrun : s.running = some r) (hstcf : pol.isStcf)
    (hlt : (s.processes p).remainingTime < (s.processes r).remainingTime) :
    Free w (s.preempted e q r) (p ::ₘ pol.members (s.preempted e q r).waiting) ∧
      Cpu.Step w.arrivalTime ((s.popped e q).view s.running (p ::ₘ pol.members s.waiting))
        ((s.preempted e q r).view none (p ::ₘ pol.members (s.preempted e q r).waiting)) := by
  have hinv := h.cpu.steps (.tail (.single (h.advance hq)) (h.arrive hq he).1)
  have hends : segmentEnds q.items = [s.segmentEnd r] := by
    have hends := h.ends_popped hq (by rw [Event.endsSegment, he])
    rwa [hrun] at hends
  have hnot : r ∉ arrivals q.items := hinv.notMem_pending_of_running hrun
  obtain ⟨hsub, harrivals, hnone, _⟩ :=
    removeEventForProcess_spec hnot hends (s.segmentEnd_process r)
  have hrem : 0 < (s.processes r).remainingTime := (h.cpu.left_nonneg p).trans_lt hlt
  -- STCF runs a segment up to the next arrival at most, and nothing queued is over before `e`
  have hend : frontier s.log = e.time := by
    refine le_antisymm ?_ (h.toCore.le_of_mem hq (h.segmentEnd_mem hrun))
    rw [h.arrival e (hq ▸ List.mem_cons_self) p he]
    exact h.preemption hstcf r hrun hrem p (mem_arrivals.mpr ⟨e, hq ▸ List.mem_cons_self, he⟩)
  have hstop : Cpu.Step w.arrivalTime
      ((s.popped e q).view s.running (p ::ₘ pol.members s.waiting)) _ := .stop r hrun hend hrem
  have hview : (s.preempted e q r).view none (p ::ₘ pol.members (s.preempted e q r).waiting) =
      { (s.popped e q).view s.running (p ::ₘ pol.members s.waiting) with
        running := none
        ready := r ::ₘ p ::ₘ pol.members s.waiting } := by
    rw [preempted, addWaiting_members, addWaiting_view, Multiset.cons_swap]
    unfold view
    rw [harrivals]
    rfl
  rw [hview]
  refine ⟨?_, hstop⟩
  exact {
    ((h.toCore.popped hq).sublist hsub).addWaiting r with
    cpu := by
      rw [hview]
      exact hinv.step hstop
    ends := hnone
    fresh := fun hnon => absurd hnon (Policy.not_nonpreemptive_of_isStcf hstcf) }

theorem handleArrival_preempt (hw : w.Nonneg) (hpol : pol.Valid) (h : Coherent w s)
    (hq : s.eventQueue.items = e :: q.items) (he : e.type = .arrival p) {r : Fin n}
    (hrun : s.running = some r) (hstcf : pol.isStcf)
    (hlt : (s.processes p).remainingTime < (s.processes r).remainingTime) :
    Coherent w ((s.preempted e q r).dispatch p pol.sortByBurstTime) ∧
      Cpu.Steps w.arrivalTime ((s.popped e q).view s.running (p ::ₘ pol.members s.waiting))
        ((s.preempted e q r).dispatch p pol.sortByBurstTime).cpu := by
  obtain ⟨hfree, hstop⟩ := h.free_preempted hq he hrun hstcf hlt
  obtain ⟨hcoherent, hstep, _⟩ := hfree.dispatch hw hpol rfl pol.sortByBurstTime
  exact ⟨hcoherent, .tail (.single hstop) hstep⟩

theorem handleArrival_eq_of_idle (hrun : s.running = none) :
    (s.popped e q).handleArrival p = (s.popped e q).dispatch p pol.sortByBurstTime := by
  simp only [handleArrival, SchedulerState.popped, hrun]

theorem handleArrival_eq_of_preempt {r : Fin n} (hrun : s.running = some r)
    (hpre : pol.isStcf ∧ (s.processes p).remainingTime < (s.processes r).remainingTime) :
    (s.popped e q).handleArrival p = (s.preempted e q r).dispatch p pol.sortByBurstTime := by
  simp only [handleArrival, preempted, SchedulerState.popped, hrun, if_pos hpre]

theorem handleArrival_eq_of_wait {r : Fin n} (hrun : s.running = some r)
    (hpre : ¬ (pol.isStcf ∧ (s.processes p).remainingTime < (s.processes r).remainingTime)) :
    (s.popped e q).handleArrival p = (s.popped e q).addWaiting p := by
  simp only [handleArrival, SchedulerState.popped, hrun, if_neg hpre]

theorem Coherent.handle_arrival (hw : w.Nonneg) (hpol : pol.Valid) (h : Coherent w s)
    (hq : s.eventQueue.items = e :: q.items) (he : e.type = .arrival p) :
    Coherent w ((s.popped e q).handleArrival p) ∧
      Cpu.Steps w.arrivalTime s.cpu ((s.popped e q).handleArrival p).cpu ∧
      ((s.popped e q).handleArrival p).cpu.progress < s.cpu.progress := by
  obtain ⟨harrive, hlt⟩ := h.arrive hq he
  suffices hrest : Coherent w ((s.popped e q).handleArrival p) ∧
      Cpu.Steps w.arrivalTime ((s.popped e q).view s.running (p ::ₘ pol.members s.waiting))
        ((s.popped e q).handleArrival p).cpu from
    ⟨hrest.1, Cpu.progress_lt_of_steps h.cpu (.single (h.advance hq)) harrive hlt hrest.2⟩
  cases hrun : s.running with
  | none =>
    rw [handleArrival_eq_of_idle hrun, ← hrun]
    exact handleArrival_idle hw hpol h hq he hrun
  | some r =>
    by_cases hpre : pol.isStcf ∧ (s.processes p).remainingTime < (s.processes r).remainingTime
    · rw [handleArrival_eq_of_preempt hrun hpre, ← hrun]
      exact handleArrival_preempt hw hpol h hq he hrun hpre.1 hpre.2
    · obtain ⟨hcoherent, hcpu⟩ := handleArrival_wait h hq he hrun
      rw [handleArrival_eq_of_wait hrun hpre, ← hrun, hcpu]
      exact ⟨hcoherent, .refl⟩

end Arrival

theorem Core.finishTime_ne (h : Core w s) (hstop : ∀ d ∈ s.dispatches, 0 ≤ d.stop)
    (hrem : (s.processes p).remainingTime = 0) (hp : ∃ d ∈ s.log, d.process = p) :
    (s.processes p).finishTime ≠ -1 := by
  obtain ⟨_, hseg, hdp⟩ := hp
  obtain ⟨d, hd, rfl⟩ := List.mem_map.mp hseg
  have hne : s.dispatchesOf p ≠ [] :=
    List.ne_nil_of_mem (List.mem_filter.mpr ⟨hd, decide_eq_true hdp⟩)
  have hlast := List.getLast?_eq_some_getLast hne
  have hfinish := (h.recorded p).finishTime
  rw [if_pos hrem, hlast] at hfinish
  have hnonneg := hstop _ (List.mem_filter.mp (List.getLast_mem hne)).1
  rw [hfinish]
  simp only [Option.map_some, Option.getD_some]
  omega

theorem stop_nonneg (hw : w.Nonneg) (h : Timeline w.arrivalTime w.burstTime s.log) :
    ∀ d ∈ s.dispatches, 0 ≤ d.stop := fun d hd => by
  have hmem : d.segment ∈ s.log := List.mem_map_of_mem hd
  have := hw.arrival d.process
  have := h.arrival_le d.segment hmem
  have := h.length_nonneg d.segment hmem
  simp only [Dispatch.segment, Dispatch.stop] at *
  omega

theorem Free.finishTime_startSegment {ready : Multiset (Fin n)} (hw : w.Nonneg)
    (hpol : pol.Valid) (h : Free w s ready) (hp : p ∈ ready)
    (hrem : ((s.startSegment p).1.processes p).remainingTime = 0) :
    ((s.startSegment p).1.processes p).finishTime ≠ -1 := by
  have hs := h.scheduled hpol hp
  refine (h.startSegment_core hw hpol hp).finishTime_ne (fun d hd => ?_) hrem
    ⟨⟨p, s.currentTime, s.runTime p⟩, by simp [startSegment_log hs], rfl⟩
  rw [startSegment_dispatches] at hd
  rcases List.mem_append.mp hd with hd | hd
  · exact stop_nonneg hw h.cpu.timeline d hd
  · have harrived := h.cpu.arrived p (h.cpu.notMem_pending_of_ready hp)
    have := hw.arrival p
    have hnonneg := hs.nonneg
    rw [List.mem_singleton.mp hd]
    simp only [Dispatch.stop, runTime, view] at *
    omega

theorem handleCompletion_eq (hrun : s.running = some p) (hfinish : (s.processes p).finishTime ≠ -1) :
    s.handleCompletion = { s with running := none }.dispatchNext pol.sortByBurstTime := by
  simp only [handleCompletion, hrun, ensureFinish, if_neg hfinish]
  rfl

theorem dispatchStamped_eq (hfinish : ((s.startSegment p).1.processes p).remainingTime = 0 →
      ((s.startSegment p).1.processes p).finishTime ≠ -1) :
    handleQuantumExpire.dispatchStamped s p = s.dispatch p pol.sortByBurstTime := by
  -- the stamp fills in only a finish time of -1, whatever the time is that it would write
  have hsame : ∀ time, ((s.startSegment p).1.processes p).remainingTime = 0 →
      (s.startSegment p).1.ensureFinish p time = (s.startSegment p).1 := fun time hrem => by
    rw [ensureFinish, if_neg (hfinish hrem)]
  unfold handleQuantumExpire.dispatchStamped dispatch
  dsimp only
  by_cases hrem : ((s.startSegment p).1.processes p).remainingTime = 0
  · rw [if_pos hrem, hsame _ hrem]
  · rw [if_neg hrem]

theorem expireNext_eq (hstamped : ∀ p waiting, pol.dequeue s.waiting = some (p, waiting) →
      handleQuantumExpire.dispatchStamped { s with waiting := waiting } p =
        { s with waiting := waiting }.dispatch p pol.sortByBurstTime) :
    handleQuantumExpire.next s = s.dispatchNext pol.sortByBurstTime := by
  unfold handleQuantumExpire.next dispatchNext
  cases hd : pol.dequeue s.waiting with
  | none => rfl
  | some r => simp only [hstamped r.1 r.2 hd]

theorem handleQuantumExpire_eq {ready : Multiset (Fin n)} (hw : w.Nonneg) (hpol : pol.Valid)
    (hrun : s.running = some p) (h : Free w (s.putBack p) ready)
    (hready : ready = pol.members (s.putBack p).waiting) :
    s.handleQuantumExpire = (s.putBack p).dispatchNext pol.sortByBurstTime := by
  simp only [handleQuantumExpire, hrun]
  refine expireNext_eq fun x waiting hd => dispatchStamped_eq fun hrem => ?_
  have hmem : x ∈ ready := by
    rw [hready, Policy.dequeue_members hd]
    exact List.mem_cons_self
  have hfree := h.sameTimes (.refl _) (s.putBack p).running waiting
  exact hfree.finishTime_startSegment hw hpol hmem hrem

section SegmentEnd

variable {e : Event n} {q : EventQueue n}

theorem Coherent.of_completion (h : Coherent w s) (hq : s.eventQueue.items = e :: q.items)
    (he : e.type = .completion p) :
    s.running = some p ∧ (s.processes p).remainingTime = 0 ∧ frontier s.log = e.time ∧
      segmentEnds q.items = [] := by
  obtain ⟨r, hrun, hend, hnone⟩ := h.of_endsSegment hq (by rw [Event.endsSegment, he])
  subst hend
  simp only [segmentEnd] at he
  split at he
  · rename_i hrem
    obtain rfl := EventType.completion.inj he
    exact ⟨hrun, hrem, rfl, hnone⟩
  · simp at he

theorem Coherent.of_quantumExpire (h : Coherent w s) (hq : s.eventQueue.items = e :: q.items)
    (he : e.type = .quantumExpire p) :
    s.running = some p ∧ 0 < (s.processes p).remainingTime ∧ frontier s.log = e.time ∧
      segmentEnds q.items = [] := by
  obtain ⟨r, hrun, hend, hnone⟩ := h.of_endsSegment hq (by rw [Event.endsSegment, he])
  subst hend
  simp only [segmentEnd] at he
  split at he
  · simp at he
  · rename_i hrem
    obtain rfl := EventType.quantumExpire.inj he
    exact ⟨hrun, lt_of_le_of_ne (h.cpu.left_nonneg r) (Ne.symm hrem), rfl, hnone⟩

theorem Coherent.free_completion (h : Coherent w s) (hq : s.eventQueue.items = e :: q.items)
    (he : e.type = .completion p) :
    let t : SchedulerState pol n := { s.popped e q with running := none }
    Free w t (pol.members s.waiting) ∧
      Cpu.Step w.arrivalTime { s.cpu with now := e.time } (t.view none (pol.members s.waiting)) ∧
      (t.view none (pol.members s.waiting)).progress <
        ({ s.cpu with now := e.time } : Cpu (Fin n)).progress := by
  intro t
  obtain ⟨hrun, hrem, hend, hnone⟩ := h.of_completion hq he
  have hinv := h.cpu.step (h.advance hq)
  have hdone : Cpu.Step w.arrivalTime { s.cpu with now := e.time } _ := .finish p hrun hend hrem
  have hview : t.view none (pol.members s.waiting) =
      { s.cpu with
        now := e.time
        running := none
        finished := p ::ₘ completed s.handled } := by
    have hcompleted : completed (s.handled ++ [e]) = completed s.handled ++ [p] := by
      simp [completed, Event.completion?, he]
    unfold SchedulerState.cpu view
    rw [← popped_arrivals hq (by rw [Event.arrival?, he]), Multiset.cons_coe,
      ← Multiset.coe_eq_coe.mpr (List.perm_append_singleton p _), ← hcompleted]
    rfl
  rw [hview]
  refine ⟨?_, hdone, Cpu.progress_finish hinv hrun⟩
  exact {
    (h.toCore.popped hq).sameTimes (.refl _) none s.waiting with
    cpu := by
      rw [hview]
      exact hinv.step hdone
    ends := hnone
    fresh := h.fresh }

theorem Coherent.handleCompletion_eq (hw : w.Nonneg) (h : Coherent w s)
    (hq : s.eventQueue.items = e :: q.items) (he : e.type = .completion p) :
    (s.popped e q).handleCompletion =
      { s.popped e q with running := none }.dispatchNext pol.sortByBurstTime := by
  obtain ⟨hrun, hrem, _⟩ := h.of_completion hq he
  exact SchedulerState.handleCompletion_eq (s := s.popped e q) hrun
    ((h.toCore.popped hq).finishTime_ne (stop_nonneg hw h.cpu.timeline) hrem
      (h.cpu.running_logged p hrun))

theorem Coherent.completion (hw : w.Nonneg) (hpol : pol.Valid) (h : Coherent w s)
    (hq : s.eventQueue.items = e :: q.items) (he : e.type = .completion p) :
    Coherent w (s.popped e q).handleCompletion ∧
      Cpu.Steps w.arrivalTime s.cpu (s.popped e q).handleCompletion.cpu ∧
      (s.popped e q).handleCompletion.cpu.progress < s.cpu.progress := by
  obtain ⟨hfree, hdone, hlt⟩ := h.free_completion hq he
  obtain ⟨hcoherent, hsteps, _⟩ := hfree.dispatch_next hw hpol rfl pol.sortByBurstTime
  rw [h.handleCompletion_eq hw hq he]
  exact ⟨hcoherent, Cpu.progress_lt_of_steps h.cpu (.single (h.advance hq)) hdone hlt hsteps⟩

theorem Coherent.free_quantumExpire (h : Coherent w s) (hq : s.eventQueue.items = e :: q.items)
    (he : e.type = .quantumExpire p) :
    Free w ((s.popped e q).putBack p) (p ::ₘ pol.members s.waiting) ∧
      p ::ₘ (pol.members s.waiting : Multiset (Fin n)) =
        pol.members ((s.popped e q).putBack p).waiting ∧
      Cpu.Step w.arrivalTime { s.cpu with now := e.time }
        (((s.popped e q).putBack p).view none (p ::ₘ pol.members s.waiting)) := by
  obtain ⟨hrun, hrem, hend, hnone⟩ := h.of_quantumExpire hq he
  have hinv := h.cpu.step (h.advance hq)
  have hstop : Cpu.Step w.arrivalTime { s.cpu with now := e.time } _ := .stop p hrun hend hrem
  have hnot : p ∉ pol.members s.waiting := hinv.notMem_ready_of_running hrun
  obtain ⟨hps, hmem⟩ := Policy.putBack_spec (s.popped e q).processes hnot
  have hready : p ::ₘ (pol.members s.waiting : Multiset (Fin n)) =
      pol.members ((s.popped e q).putBack p).waiting := by
    rw [Multiset.cons_coe, ← Multiset.coe_eq_coe.mpr hmem]
    rfl
  have hview : ((s.popped e q).putBack p).view none (p ::ₘ pol.members s.waiting) =
      { s.cpu with now := e.time, running := none, ready := p ::ₘ pol.members s.waiting } := by
    refine (view_sameTimes hps s.running none _ _).trans ?_
    rw [popped_view hq (by rw [Event.arrival?, he]) (by rw [Event.completion?, he])]
    rfl
  rw [hview]
  refine ⟨?_, hready, hstop⟩
  exact {
    (h.toCore.popped hq).sameTimes hps s.running _ with
    cpu := by
      rw [hview]
      exact hinv.step hstop
    ends := hnone
    fresh := fun hnon => absurd (h.whole hnon p hrun) hrem.ne' }

theorem Coherent.handleQuantumExpire_eq (hw : w.Nonneg) (hpol : pol.Valid) (h : Coherent w s)
    (hq : s.eventQueue.items = e :: q.items) (he : e.type = .quantumExpire p) :
    (s.popped e q).handleQuantumExpire =
      ((s.popped e q).putBack p).dispatchNext pol.sortByBurstTime := by
  obtain ⟨hfree, hready, _⟩ := h.free_quantumExpire hq he
  exact SchedulerState.handleQuantumExpire_eq (s := s.popped e q) hw hpol
    (h.of_quantumExpire hq he).1 hfree hready

theorem Coherent.quantumExpire (hw : w.Nonneg) (hpol : pol.Valid) (h : Coherent w s)
    (hq : s.eventQueue.items = e :: q.items) (he : e.type = .quantumExpire p) :
    Coherent w (s.popped e q).handleQuantumExpire ∧
      Cpu.Steps w.arrivalTime s.cpu (s.popped e q).handleQuantumExpire.cpu ∧
      (s.popped e q).handleQuantumExpire.cpu.progress < s.cpu.progress := by
  obtain ⟨hfree, hready, hstop⟩ := h.free_quantumExpire hq he
  obtain ⟨hcoherent, hsteps, hlt⟩ := hfree.dispatch_next hw hpol hready pol.sortByBurstTime
  have hadvance := h.advance hq
  rw [h.handleQuantumExpire_eq hw hpol hq he]
  refine ⟨hcoherent, (Relation.ReflTransGen.tail (.single hadvance) hstop).trans hsteps, ?_⟩
  -- the stop alone makes no progress: what does is the dispatch after it
  exact (hlt Multiset.cons_ne_zero).trans_le
    ((Cpu.progress_le (h.cpu.step hadvance) hstop).trans (Cpu.progress_le h.cpu hadvance))

end SegmentEnd

theorem Coherent.sameTimes (h : Coherent w s) {ps : Table n} (hps : SameTimes s.processes ps)
    {waiting : pol.Queue n} (hmem : pol.members waiting = pol.members s.waiting) :
    Coherent w { s with processes := ps, waiting := waiting } ∧
      ({ s with processes := ps, waiting := waiting } : SchedulerState pol n).cpu = s.cpu := by
  have hcpu : ({ s with processes := ps, waiting := waiting } : SchedulerState pol n).cpu = s.cpu := by
    refine (view_sameTimes hps s.running s.running waiting _).trans ?_
    rw [hmem]
    rfl
  have hend : ({ s with processes := ps, waiting := waiting } : SchedulerState pol n).segmentEnd =
      s.segmentEnd := funext fun p => segmentEnd_sameTimes hps p
  refine ⟨?_, hcpu⟩
  refine { h.toCore.sameTimes hps s.running waiting with
    cpu := hcpu ▸ h.cpu, ends := ?_, idle := ?_, preemption := ?_, whole := ?_, fresh := ?_ }
  · rw [hend]
    exact h.ends
  · exact fun hnone => hmem.trans (h.idle hnone)
  · exact fun hstcf p hp hrem => h.preemption hstcf p hp (hrem.trans_eq (hps.remainingTime p))
  · exact fun hnon p hp => (hps.remainingTime p).trans (h.whole hnon p hp)
  · exact fun hnon p hp => h.fresh hnon p (hmem ▸ hp)

theorem handlePriorityBoost_safe (hidle : s.running = none → pol.members s.waiting = [])
    (hsafe : ∀ p, s.running = some p → (s.processes p).remainingTime = 0) :
    ∃ ps waiting, SameTimes s.processes ps ∧ pol.members waiting = pol.members s.waiting ∧
      s.handlePriorityBoost = { s with processes := ps, waiting := waiting } := by
  by_cases hmlfq : pol.isMlfq = true
  swap
  · exact ⟨s.processes, s.waiting, .refl _, rfl, by rw [handlePriorityBoost, if_pos hmlfq]⟩
  rw [handlePriorityBoost, if_neg (not_not.mpr hmlfq)]
  cases hrun : s.running with
  | some p =>
    refine ⟨s.processes, s.waiting, .refl _, rfl, ?_⟩
    simp only [hsafe p hrun, if_true, ← hrun]
  | none =>
    -- the queues are lifted, but an idle CPU has nobody waiting to be dispatched from them
    have hmem := Policy.priorityBoost_members s.processes (q := s.waiting)
    have hempty : ¬ 0 < pol.size (handlePriorityBoost.boostWaiting s).waiting := by
      rw [Policy.size_eq]
      simp only [handlePriorityBoost.boostWaiting, hmem, hidle hrun, List.length_nil, lt_irrefl,
        not_false_eq_true]
    have hps := Policy.priorityBoost_sameTimes s.processes (q := s.waiting)
    refine ⟨_, _, hps, hmem, ?_⟩
    simp only [handlePriorityBoost.reschedule, if_neg hempty]
    simp only [handlePriorityBoost.boostWaiting]

theorem Coherent.priorityBoost {e : Event n} {q : EventQueue n} (h : Coherent w s)
    (hq : s.eventQueue.items = e :: q.items) (he : e.type = .priorityBoost)
    (hsafe : ∀ p, s.running = some p → (s.processes p).remainingTime = 0) :
    Coherent w (s.popped e q).handlePriorityBoost ∧
      (s.popped e q).handlePriorityBoost.cpu = { s.cpu with now := e.time } ∧
      (s.popped e q).handlePriorityBoost.eventQueue = q := by
  have harrivals := popped_arrivals hq (by rw [Event.arrival?, he])
  have hview := popped_view (s := s) hq (by rw [Event.arrival?, he]) (by rw [Event.completion?, he])
    s.running (pol.members s.waiting)
  have hpopped : Coherent w (s.popped e q) := {
    h.toCore.popped hq with
    cpu := by
      change Cpu.Inv _ _ ((s.popped e q).view s.running (pol.members s.waiting))
      rw [hview]
      exact h.cpu.step (h.advance hq)
    ends := h.ends_popped hq (by rw [Event.endsSegment, he])
    idle := h.idle
    preemption := fun hstcf p hp hrem a ha => h.preemption hstcf p hp hrem a (harrivals ▸ ha)
    whole := h.whole
    fresh := h.fresh }
  obtain ⟨ps, waiting, hps, hmem, hboost⟩ :=
    handlePriorityBoost_safe (s := s.popped e q) h.idle hsafe
  obtain ⟨hcoherent, hcpu⟩ := hpopped.sameTimes hps hmem
  rw [hboost]
  exact ⟨hcoherent, hcpu.trans hview, rfl⟩

def measure (s : SchedulerState pol n) : (ℕ ×ₗ ℕ ×ₗ ℕ) ×ₗ ℕ :=
  toLex (s.cpu.progress, (boosts s.eventQueue.items).length)

theorem measure_lt (h : s'.cpu.progress < s.cpu.progress) : s'.measure < s.measure :=
  Prod.Lex.toLex_lt_toLex.mpr (.inl h)

theorem Coherent.round (hw : w.Nonneg) (hpol : pol.Valid) (h : Coherent w s) (hsafe : s.BoostSafe)
    (hb : s.loopBody = some s') :
    Coherent w s' ∧ Cpu.Steps w.arrivalTime s.cpu s'.cpu ∧ s'.measure < s.measure := by
  obtain ⟨e, q, hq, rfl⟩ := loopBody_eq_some hb
  unfold handleEvent
  cases he : e.type with
  | arrival p =>
    obtain ⟨hcoherent, hsteps, hlt⟩ := h.handle_arrival hw hpol hq he
    exact ⟨hcoherent, hsteps, measure_lt hlt⟩
  | completion p =>
    obtain ⟨hcoherent, hsteps, hlt⟩ := h.completion hw hpol hq he
    exact ⟨hcoherent, hsteps, measure_lt hlt⟩
  | quantumExpire p =>
    obtain ⟨hcoherent, hsteps, hlt⟩ := h.quantumExpire hw hpol hq he
    exact ⟨hcoherent, hsteps, measure_lt hlt⟩
  | priorityBoost =>
    obtain ⟨hcoherent, hcpu, hqueue⟩ := h.priorityBoost hq he
      (hsafe e q (dequeueEvent_eq_some.mpr hq) he)
    refine ⟨hcoherent, hcpu ▸ .single (h.advance hq), Prod.Lex.toLex_lt_toLex.mpr (.inr ⟨?_, ?_⟩)⟩
    · rw [hcpu]
      rfl
    · simp only [hqueue, hq, boosts]
      rw [List.filter_cons_of_pos (by simp [he])]
      exact Nat.lt_succ_self _

end SchedulerState
end OsLab.Sched
