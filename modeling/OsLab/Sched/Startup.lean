import OsLab.Sched.Refinement

/-! `initialize_events` puts every arrival into the event queue, and for MLFQ the boosts; the
loop then starts in a coherent state. -/

namespace OsLab.Sched

variable {n : Nat} {pol : Policy}

namespace SchedulerState

variable {w : Workload n} {s : SchedulerState pol n}

/-- Nothing has happened yet, and the arrivals of `l` are queued. -/
structure Starting (w : Workload n) (s : SchedulerState pol n) (l : List (Fin n)) : Prop where
  processes : s.processes = w.processes
  running : s.running = none
  waiting : pol.members s.waiting = []
  currentTime : s.currentTime = 0
  dispatches : s.dispatches = []
  handled : s.handled = []
  ordered : TimeOrdered s.eventQueue.items
  future : ∀ e ∈ s.eventQueue.items, 0 ≤ e.time
  arrival : ∀ e ∈ s.eventQueue.items, ∀ p, e.type = .arrival p → e.time = w.arrivalTime p
  ends : segmentEnds s.eventQueue.items = []
  arrivals : (arrivals s.eventQueue.items).Perm l
  enqueued : ∀ r ∈ s.enqueued, r.1 ≤ r.2.time

theorem initialState_starting (pol : Policy) (w : Workload n) :
    (initialState pol w).Starting w [] where
  processes := rfl
  running := rfl
  waiting := pol.members_emptyQueue
  currentTime := rfl
  dispatches := rfl
  handled := rfl
  ordered := .nil
  future := by simp [initialState]
  arrival := by simp [initialState]
  ends := rfl
  arrivals := .refl []
  enqueued := by simp [initialState]

theorem Starting.addEvent {l l' : List (Fin n)} (h : s.Starting w l) {e : Event n} (arrange : Bool)
    (htime : 0 ≤ e.time) (hend : e.endsSegment = false)
    (harrival : ∀ p, e.type = .arrival p → e.time = w.arrivalTime p)
    (hl : (Sched.arrivals (s.addEvent e arrange).eventQueue.items).Perm l') :
    (s.addEvent e arrange).Starting w l' :=
  { h with
    ordered := enqueueEvent_ordered s.processes e arrange h.ordered
    future := fun e' he' => by
      rcases mem_enqueueEvent.mp he' with rfl | he'
      · exact htime
      · exact h.future e' he'
    arrival := fun e' he' => by
      rcases mem_enqueueEvent.mp he' with rfl | he'
      · exact harrival
      · exact h.arrival e' he'
    ends := enqueueEvent_segmentEnds_nil s.processes s.eventQueue e arrange hend h.ends
    arrivals := hl
    enqueued := fun r hr => by
      rcases List.mem_append.mp hr with hr | hr
      · exact h.enqueued r hr
      · rw [List.mem_singleton.mp hr]
        exact h.currentTime.le.trans htime }

/-- The first loop of `initialize_events`, over the processes of `l`. -/
def queueArrivals (s : SchedulerState pol n) (l : List (Fin n)) : SchedulerState pol n :=
  l.foldl (fun s i => s.addEvent ⟨(s.processes i).arrivalTime, .arrival i⟩ pol.sortByBurstTime) s

theorem queueArrivals_processes (s : SchedulerState pol n) (l : List (Fin n)) :
    (s.queueArrivals l).processes = s.processes ∧
      (s.queueArrivals l).currentTime = s.currentTime := by
  induction l generalizing s with
  | nil => exact ⟨rfl, rfl⟩
  | cons p l ih => exact ih _

/-- What the empty state has and every event that is queued at the start keeps. It may depend on
the processes whose arrivals are queued, of which the last one comes first. -/
theorem startState_induction (inv : List (Fin n) → SchedulerState pol n → Prop)
    (hinit : inv [] (initialState pol w))
    (harrival : ∀ l p s, s.processes = w.processes → s.currentTime = 0 → (∀ q ∈ l, q < p) →
      inv l s → inv (p :: l) (s.addEvent ⟨w.arrivalTime p, .arrival p⟩ pol.sortByBurstTime))
    (hboost : ∀ l time s, s.processes = w.processes → s.currentTime = 0 → 0 < pol.boostPeriod →
      0 ≤ time → time ≤ s.maxArrival + s.totalBurst + 1000 → inv l s →
      inv l (s.addEvent ⟨time, .priorityBoost⟩ false)) :
    inv (List.finRange n).reverse (startState pol w) := by
  have harrivals : ∀ (rest before : List (Fin n)) (s : SchedulerState pol n),
      before.reverse ++ rest = List.finRange n → s.processes = w.processes → s.currentTime = 0 →
      inv before s → inv (List.finRange n).reverse (s.queueArrivals rest) := by
    intro rest
    induction rest with
    | nil =>
      intro before s hall _ _ hs
      rw [← hall, List.append_nil, List.reverse_reverse]
      exact hs
    | cons p rest ih =>
      intro before s hall hps hnow hs
      have hlt : ∀ q ∈ before, q < p := by
        have hsorted := List.pairwise_lt_finRange n
        rw [← hall] at hsorted
        exact fun q hq => (List.pairwise_append.mp hsorted).2.2 q (List.mem_reverse.mpr hq) p
          List.mem_cons_self
      have htime : (s.processes p).arrivalTime = w.arrivalTime p := by
        rw [hps]
        rfl
      rw [queueArrivals, List.foldl_cons, htime]
      refine ih (p :: before) _ ?_ hps hnow (harrival before p s hps hnow hlt hs)
      rw [List.reverse_cons, List.append_assoc, List.singleton_append, hall]
  have hboosts : ∀ (fuel : Nat) (time : Int) (s : SchedulerState pol n), s.processes = w.processes →
      s.currentTime = 0 → 0 < pol.boostPeriod → 0 ≤ time → inv (List.finRange n).reverse s →
      inv (List.finRange n).reverse
        (s.addBoosts pol.boostPeriod (s.maxArrival + s.totalBurst + 1000) fuel time) := by
    intro fuel
    induction fuel with
    | zero => exact fun _ _ _ _ _ _ hs => hs
    | succ fuel ih =>
      intro time s hps hnow hperiod htime hs
      rw [addBoosts]
      split_ifs with hmax
      · exact ih _ (s.addEvent _ _) hps hnow hperiod (by omega)
          (hboost _ time s hps hnow hperiod htime hmax hs)
      · exact hs
  have hqueued := harrivals (List.finRange n) [] (initialState pol w) rfl rfl rfl hinit
  obtain ⟨hps, hnow⟩ := queueArrivals_processes (initialState pol w) (List.finRange n)
  unfold startState initializeEvents
  dsimp only
  split_ifs with hperiod
  · exact hboosts _ _ _ hps hnow hperiod.2 hperiod.2.le hqueued
  · exact hqueued

theorem startState_starting (hw : w.Nonneg) (pol : Policy) :
    (startState pol w).Starting w (List.finRange n).reverse := by
  refine startState_induction (fun l s => s.Starting w l) (initialState_starting pol w)
    (fun l p s _ _ _ h => ?_) (fun l time s _ _ _ htime _ h => ?_)
  · refine h.addEvent _ (hw.arrival p) rfl (fun q hq => by rw [← EventType.arrival.inj hq]) ?_
    exact (enqueueEvent_arrival _ _ _ _ rfl).trans (h.arrivals.cons p)
  · refine h.addEvent false htime rfl (fun q hq => by simp at hq) ?_
    exact (enqueueEvent_arrivals _ _ _ false rfl).trans h.arrivals

theorem Starting.cpu_eq (h : s.Starting w (List.finRange n).reverse) :
    s.cpu = Cpu.init w.burstTime := by
  unfold cpu view Cpu.init log
  have hpending : (Sched.arrivals s.eventQueue.items : Multiset (Fin n)) = Finset.univ.val := by
    rw [Multiset.coe_eq_coe.mpr (h.arrivals.trans (List.reverse_perm _)), Fin.univ_def]
  rw [hpending, h.waiting, h.running, h.currentTime, h.dispatches, h.handled, h.processes]
  rfl

theorem startState_coherent (hw : w.Nonneg) (pol : Policy) : Coherent w (startState pol w) := by
  have h := startState_starting hw pol
  refine {
    ordered := h.ordered, arrival := h.arrival, future := ?_, recorded := ?_, cpu := ?_, ends := ?_,
    idle := fun _ => h.waiting, preemption := ?_, whole := ?_, fresh := ?_ }
  · rw [h.currentTime]
    exact h.future
  · intro p
    have hnone : (startState pol w).dispatchesOf p = [] := by simp [dispatchesOf, h.dispatches]
    refine ⟨?_, ?_, ?_, ?_⟩ <;> simp only [h.processes, hnone]
    · rfl
    · rfl
    · rfl
    · split_ifs <;> rfl
  · rw [h.cpu_eq]
    exact Cpu.init_inv hw.arrival hw.burst
  · rw [h.running]
    exact h.ends
  · simp [h.running]
  · simp [h.running]
  · simp [h.waiting]

theorem ReachesVia.coherent (hw : w.Nonneg) (hpol : pol.Valid)
    (h : Loop.ReachesVia loopBody BoostSafe (startState pol w) s) : Coherent w s :=
  h.invariant (Coherent w) (fun _ _ hsafe hb hc => (hc.round hw hpol hsafe hb).1) (startState_coherent hw pol)

theorem ReachesVia.steps (hw : w.Nonneg) (hpol : pol.Valid)
    (h : Loop.ReachesVia loopBody BoostSafe (startState pol w) s) :
    Cpu.Steps w.arrivalTime (Cpu.init w.burstTime) s.cpu := by
  induction h with
  | refl => rw [(startState_starting hw pol).cpu_eq]; exact .refl
  | tail hr hb ih =>
    exact ih.trans ((ReachesVia.coherent hw hpol hr).round hw hpol hb.1 hb.2).2.1

end SchedulerState
end OsLab.Sched
