import OsLab.Foundation.CInt
import OsLab.Sched.BoostReach

/-! The horizon up to which `initialize_events` queues the priority boosts. The end of a queued
segment leaves room, up to the horizon, for all the work that is not yet charged to a segment. It
holds of the overlapping segments of a boosted run as well: each of them is paid for when it
starts, and a boost takes nothing back. -/

namespace OsLab.Sched

variable {n : Nat} {pol : Policy} {w : Workload n}

def Workload.latestArrival (w : Workload n) : Int := Finset.univ.fold max 0 w.arrivalTime

def Workload.horizon (w : Workload n) : Int := w.latestArrival + ∑ p, w.burstTime p

theorem Workload.arrivalTime_le_latest (w : Workload n) (p : Fin n) :
    w.arrivalTime p ≤ w.latestArrival :=
  (Finset.le_fold_max _).mpr (.inr ⟨p, Finset.mem_univ p, le_rfl⟩)

theorem Workload.latestArrival_nonneg (w : Workload n) : 0 ≤ w.latestArrival :=
  (Finset.le_fold_max _).mpr (.inl le_rfl)

theorem Workload.Nonneg.latest_le_horizon (hw : w.Nonneg) : w.latestArrival ≤ w.horizon :=
  le_add_of_nonneg_right (Finset.sum_nonneg fun p _ => hw.burst p)

def Event.Within (w : Workload n) (e : Event n) : Prop :=
  0 ≤ e.time ∧
    match e.type with
    | .arrival p => e.time = w.arrivalTime p
    | .priorityBoost => e.time ≤ w.horizon + 1000
    | _ => e.time ≤ w.horizon

theorem Event.Within.of_endsSegment {e : Event n} (h : e.Within w) (he : e.endsSegment = true) :
    e.time ≤ w.horizon := by
  have hbound := h.2
  unfold Event.endsSegment at he
  cases htype : e.type <;> simp_all

theorem Event.Within.arrivalTime {e : Event n} (h : e.Within w) {p : Fin n}
    (he : e.type = .arrival p) : e.time = w.arrivalTime p := by
  have hbound := h.2
  rwa [he] at hbound

theorem Event.Within.le_buffer {e : Event n} (hw : w.Nonneg) (h : e.Within w) :
    e.time ≤ w.horizon + 1000 := by
  have hbound := h.2
  have hlatest := hw.latest_le_horizon
  split at hbound
  · rename_i p _
    have := w.arrivalTime_le_latest p
    omega
  · exact hbound
  · omega

theorem Policy.schedule_runTime (hpol : pol.Valid) (q : EventQueue n) (now : Int) {p : Process}
    (hrem : 0 ≤ p.remainingTime) : (pol.schedule q now p).1.remainingTime = p.remainingTime ∧
      0 ≤ (pol.schedule q now p).2 ∧ (pol.schedule q now p).2 ≤ p.remainingTime := by
  have hofScheduled : ∀ out : Process × Int, Scheduled now p out →
      out.1.remainingTime = p.remainingTime ∧ 0 ≤ out.2 ∧ out.2 ≤ p.remainingTime :=
    fun _ h => ⟨h.remainingTime, h.nonneg, h.le⟩
  cases pol with
  | fcfs => exact ⟨rfl, hrem, le_rfl⟩
  | sjf => exact ⟨rfl, hrem, le_rfl⟩
  | stcf => exact hofScheduled _ (scheduleStcf_scheduled hrem)
  | rr quantumTime => exact hofScheduled _ (scheduleRr_scheduled hpol hrem)
  | mlfq config h => exact hofScheduled _ (scheduleMlfq_scheduled (hpol _) hrem)

/-- The times stamped on a record are unknown, or on the horizon at the latest. -/
structure Process.Stamped (w : Workload n) (r : Process) : Prop where
  startTime : -1 ≤ r.startTime ∧ r.startTime ≤ w.horizon
  finishTime : -1 ≤ r.finishTime ∧ r.finishTime ≤ w.horizon

theorem Process.Stamped.congr {r r' : Process} (h : r.Stamped w) (hstart : r'.startTime = r.startTime)
    (hfinish : r'.finishTime = r.finishTime) : r'.Stamped w :=
  ⟨hstart ▸ h.startTime, hfinish ▸ h.finishTime⟩

theorem Process.Stamped.setFinish {r : Process} (h : r.Stamped w) {time : Int} (hnonneg : 0 ≤ time)
    (hle : time ≤ w.horizon) : (setFinish r time).Stamped w :=
  ⟨h.startTime, (show (-1 : Int) ≤ 0 by decide).trans hnonneg, hle⟩

theorem Scheduled.stamped {now : Int} {r : Process} {out : Process × Int} (h : Scheduled now r out)
    (hstamped : r.Stamped w) (hnow : 0 ≤ now) (hroom : now + r.remainingTime ≤ w.horizon) :
    out.1.Stamped w := by
  have hrun := h.nonneg
  have hle := h.le
  constructor
  · rw [h.startTime]
    split_ifs
    · exact ⟨by omega, by omega⟩
    · exact hstamped.startTime
  · rw [h.finishTime]
    split_ifs
    · exact ⟨by omega, by omega⟩
    · exact hstamped.finishTime

namespace SchedulerState

variable {s s' : SchedulerState pol n} {p : Fin n}

def workLeft (s : SchedulerState pol n) : Int := ∑ p, (s.processes p).remainingTime

structure Charged (w : Workload n) (s : SchedulerState pol n) : Prop where
  now : 0 ≤ s.currentTime
  ordered : TimeOrdered s.eventQueue.items
  left : ∀ p, 0 ≤ (s.processes p).remainingTime ∧ (s.processes p).remainingTime ≤ w.burstTime p
  queued : ∀ e ∈ s.eventQueue.items, e.Within w
  room : ∀ e ∈ s.eventQueue.items, e.endsSegment = true → e.time + s.workLeft ≤ w.horizon
  enqueued : ∀ r ∈ s.enqueued, r.2.Within w
  stamped : pol.isMlfq = true → ∀ p, (s.processes p).Stamped w

structure Funded (w : Workload n) (s : SchedulerState pol n) : Prop extends Charged w s where
  idle : s.running = none → pol.members s.waiting = []
  busy : s.running ≠ none → ∃ e ∈ s.eventQueue.items, e.endsSegment = true

def Affords (w : Workload n) (s : SchedulerState pol n) : Prop :=
  s.currentTime + s.workLeft ≤ w.horizon

theorem Charged.workLeft_nonneg (h : Charged w s) : 0 ≤ s.workLeft :=
  Finset.sum_nonneg fun p _ => (h.left p).1

theorem workLeft_congr
    (hrem : ∀ p, (s'.processes p).remainingTime = (s.processes p).remainingTime) :
    s'.workLeft = s.workLeft := Finset.sum_congr rfl fun p _ => hrem p

theorem Charged.congr (h : Charged w s) (hsame : SameTimes s.processes s'.processes)
    (hnow : s'.currentTime = s.currentTime)
    (hqueue : s'.eventQueue.items.Sublist s.eventQueue.items)
    (henqueued : s'.enqueued = s.enqueued) : Charged w s' where
  now := hnow ▸ h.now
  ordered := h.ordered.sublist hqueue
  left p := hsame.remainingTime p ▸ h.left p
  queued e he := h.queued e (hqueue.subset he)
  room e he hend := workLeft_congr hsame.remainingTime ▸ h.room e (hqueue.subset he) hend
  enqueued := henqueued ▸ h.enqueued
  stamped hmlfq p := (h.stamped hmlfq p).congr (hsame.startTime p) (hsame.finishTime p)

theorem Charged.remainingTime_le (h : Charged w s) (p : Fin n) :
    (s.processes p).remainingTime ≤ s.workLeft :=
  Finset.single_le_sum (f := fun q => (s.processes q).remainingTime) (fun q _ => (h.left q).1)
    (Finset.mem_univ p)

theorem Charged.now_le (h : Charged w s) (hroom : s.Affords w) : s.currentTime ≤ w.horizon :=
  (le_add_of_nonneg_right h.workLeft_nonneg).trans hroom

theorem Affords.congr (h : s.Affords w)
    (hrem : ∀ p, (s'.processes p).remainingTime = (s.processes p).remainingTime)
    (hnow : s'.currentTime = s.currentTime) : s'.Affords w := by
  unfold Affords at h ⊢
  rwa [hnow, workLeft_congr hrem]

theorem Charged.schedule_stamped (hpol : pol.Valid) (h : Charged w s) (hroom : s.Affords w)
    (hmlfq : pol.isMlfq = true) (p : Fin n) :
    (pol.schedule s.eventQueue s.currentTime (s.processes p)).1.Stamped w := by
  have hle := h.remainingTime_le p
  unfold Affords at hroom
  cases pol with
  | mlfq config hpos =>
    exact (scheduleMlfq_scheduled (hpol _) (h.left p).1).stamped (h.stamped hmlfq p) h.now (by omega)
  | _ => exact absurd hmlfq Bool.false_ne_true

theorem Charged.startSegment (hpol : pol.Valid) (h : Charged w s) (hroom : s.Affords w) (p : Fin n) :
    Charged w (s.startSegment p).1 ∧ 0 ≤ s.runTime p ∧
      (s.startSegment p).1.workLeft = s.workLeft - s.runTime p := by
  obtain ⟨hsame, hnonneg, hle⟩ := Policy.schedule_runTime hpol s.eventQueue s.currentTime
    (h.left p).1
  have hcharged : ∀ q, ((s.startSegment p).1.processes q).remainingTime =
      Function.update (fun q => (s.processes q).remainingTime) p
        ((s.processes p).remainingTime - s.runTime p) q := by
    intro q
    rcases eq_or_ne q p with rfl | hq
    · simp only [SchedulerState.startSegment, Function.update_self, hsame]
      rfl
    · simp only [SchedulerState.startSegment, Function.update_of_ne hq]
  have hwork : (s.startSegment p).1.workLeft = s.workLeft - s.runTime p := by
    unfold workLeft
    simp only [hcharged]
    rw [Finset.sum_update_of_mem (Finset.mem_univ p),
      Finset.sum_eq_add_sum_sdiff_singleton_of_mem (Finset.mem_univ p)]
    ring
  refine ⟨?_, hnonneg, hwork⟩
  refine { h with
    left := fun q => ?_, room := fun e he hend => ?_, stamped := fun hmlfq q => ?_ }
  · rw [hcharged]
    rcases eq_or_ne q p with rfl | hq
    · rw [Function.update_self]
      have := h.left q
      unfold runTime
      omega
    · rw [Function.update_of_ne hq]
      exact h.left q
  · have := h.room e he hend
    have hnonneg : 0 ≤ s.runTime p := hnonneg
    omega
  · simp only [SchedulerState.startSegment]
    rcases eq_or_ne q p with rfl | hq
    · rw [Function.update_self]
      exact (h.schedule_stamped hpol hroom hmlfq q).congr rfl rfl
    · rw [Function.update_of_ne hq]
      exact h.stamped hmlfq q

theorem Charged.queueSegmentEnd (h : Charged w s) (p : Fin n) {r : Int} (hr : 0 ≤ r)
    (hroom : s.currentTime + r + s.workLeft ≤ w.horizon) (arrange : Bool) :
    Charged w (s.queueSegmentEnd p r arrange) ∧
      ∃ e ∈ (s.queueSegmentEnd p r arrange).eventQueue.items, e.endsSegment = true := by
  obtain ⟨e, hend, hqueued, heq⟩ : ∃ e : Event n, e.endsSegment = true ∧
      e.time = s.currentTime + r ∧ s.queueSegmentEnd p r arrange = s.addEvent e arrange := by
    refine ⟨_, ?_, rfl, rfl⟩
    unfold Event.endsSegment
    split_ifs <;> rfl
  have hwithin : e.Within w := by
    have := h.now
    have := h.workLeft_nonneg
    refine ⟨by omega, ?_⟩
    unfold Event.endsSegment at hend
    cases htype : e.type <;> simp_all <;> omega
  rw [heq]
  refine ⟨?_, e, mem_enqueueEvent.mpr (.inl rfl), hend⟩
  refine { h with
    ordered := enqueueEvent_ordered s.processes e arrange h.ordered
    queued := fun e' he' => ?_, room := fun e' he' hend' => ?_, enqueued := fun r hr => ?_ }
  · rcases mem_enqueueEvent.mp he' with rfl | he'
    · exact hwithin
    · exact h.queued e' he'
  · rcases mem_enqueueEvent.mp he' with rfl | he'
    · exact hqueued ▸ hroom
    · exact h.room e' he' hend'
  · rcases List.mem_append.mp hr with hr | hr
    · exact h.enqueued r hr
    · rw [List.mem_singleton.mp hr]
      exact hwithin

theorem Charged.dispatch (hpol : pol.Valid) (h : Charged w s) (hroom : s.Affords w) (p : Fin n)
    (arrange : Bool) : Funded w (s.dispatch p arrange) := by
  obtain ⟨hcharged, hnonneg, hwork⟩ := h.startSegment hpol hroom p
  obtain ⟨hqueued, hbusy⟩ := hcharged.queueSegmentEnd p hnonneg (by
    rw [hwork]
    unfold Affords at hroom
    show s.currentTime + _ + _ ≤ _
    omega) arrange
  exact { hqueued with
    idle := fun hnone => absurd hnone.symm (Option.some_ne_none p).symm
    busy := fun _ => hbusy }

theorem ensureFinish_remainingTime (s : SchedulerState pol n) (p : Fin n) (time : Int)
    (q : Fin n) :
    ((s.ensureFinish p time).processes q).remainingTime = (s.processes q).remainingTime := by
  unfold ensureFinish
  split_ifs
  · exact Table.modify_field Process.remainingTime s.processes p _ rfl q
  · rfl

theorem ensureFinish_currentTime (s : SchedulerState pol n) (p : Fin n) (time : Int) :
    (s.ensureFinish p time).currentTime = s.currentTime := by
  unfold ensureFinish
  split_ifs <;> rfl

theorem ensureFinish_enqueued (s : SchedulerState pol n) (p : Fin n) (time : Int) :
    (s.ensureFinish p time).enqueued = s.enqueued := by
  unfold ensureFinish
  split_ifs <;> rfl

theorem ensureFinish_running (s : SchedulerState pol n) (p : Fin n) (time : Int) :
    (s.ensureFinish p time).running = s.running := by
  unfold ensureFinish
  split_ifs <;> rfl

theorem Charged.ensureFinish (h : Charged w s) (p : Fin n) {time : Int} (hnonneg : 0 ≤ time)
    (hle : time ≤ w.horizon) : Charged w (s.ensureFinish p time) := by
  have hrem := ensureFinish_remainingTime s p time
  refine { h with
    now := ?_, ordered := ?_, left := fun q => hrem q ▸ h.left q, queued := ?_
    room := ?_, enqueued := ?_, stamped := fun hmlfq q => ?_ }
  · rw [ensureFinish_currentTime]
    exact h.now
  · rw [ensureFinish_eventQueue]
    exact h.ordered
  · rw [ensureFinish_eventQueue]
    exact h.queued
  · rw [ensureFinish_eventQueue, workLeft_congr hrem]
    exact h.room
  · rw [ensureFinish_enqueued]
    exact h.enqueued
  · have hstamped := h.stamped hmlfq
    unfold SchedulerState.ensureFinish
    split_ifs
    · show (s.processes.modify p (setFinish · time) q).Stamped w
      rcases eq_or_ne q p with rfl | hq
      · rw [Table.modify_self]
        exact (hstamped q).setFinish hnonneg hle
      · rw [Table.modify_of_ne hq]
        exact hstamped q
    · exact hstamped q

theorem Charged.dispatchStamped (hpol : pol.Valid) (h : Charged w s) (hroom : s.Affords w)
    (p : Fin n) : Funded w (handleQuantumExpire.dispatchStamped s p) := by
  obtain ⟨hcharged, hnonneg, hwork⟩ := h.startSegment hpol hroom p
  have hroom' : s.currentTime + s.runTime p + (s.startSegment p).1.workLeft ≤ w.horizon := by
    unfold Affords at hroom
    omega
  have hqueue : ∀ t : SchedulerState pol n, Charged w t → t.running = some p →
      t.currentTime = s.currentTime → t.workLeft = (s.startSegment p).1.workLeft →
      Funded w (t.queueSegmentEnd p (s.runTime p) pol.sortByBurstTime) := by
    intro t ht hrun hnow hleft
    obtain ⟨hqueued, hbusy⟩ := ht.queueSegmentEnd p hnonneg (by rwa [hnow, hleft])
      pol.sortByBurstTime
    exact { hqueued with
      idle := fun hnone => absurd (hrun.symm.trans hnone) (Option.some_ne_none p)
      busy := fun _ => hbusy }
  unfold handleQuantumExpire.dispatchStamped
  dsimp only
  split_ifs
  · have hstop : 0 ≤ s.currentTime + s.runTime p := add_nonneg h.now hnonneg
    have hmax : s.currentTime + s.runTime p ≤ w.horizon :=
      (le_add_of_nonneg_right hcharged.workLeft_nonneg).trans hroom'
    refine hqueue _ (hcharged.ensureFinish p hstop hmax) ?_ (ensureFinish_currentTime ..) ?_
    · rw [ensureFinish_running]
      rfl
    · exact workLeft_congr (ensureFinish_remainingTime _ p _)
  · exact hqueue _ hcharged rfl rfl rfl

theorem Charged.dispatchNext (hpol : pol.Valid) (h : Charged w s)
    (hroom : pol.members s.waiting ≠ [] → s.Affords w) (arrange : Bool) :
    Funded w (s.dispatchNext arrange) := by
  rcases s.dispatchNext_cases arrange with ⟨hnil, heq⟩ | ⟨p, waiting, _, hmembers, heq⟩
  · rw [heq]
    exact { h.congr (.refl _) rfl (.refl _) rfl with
      idle := fun _ => hnil
      busy := fun hne => absurd rfl hne }
  · rw [heq]
    have hroom := hroom (by rw [hmembers]; exact List.cons_ne_nil _ _)
    have hpopped : Charged w { s with waiting := waiting } := h.congr (.refl _) rfl (.refl _) rfl
    exact hpopped.dispatch hpol (hroom.congr (fun _ => rfl) rfl) p arrange

theorem Charged.expireNext (hpol : pol.Valid) (h : Charged w s) (hroom : s.Affords w) :
    Funded w (handleQuantumExpire.next s) := by
  rcases s.expireNext_cases with ⟨hnil, heq⟩ | ⟨p, waiting, _, heq⟩
  · rw [heq]
    exact { h.congr (.refl _) rfl (.refl _) rfl with
      idle := fun _ => hnil
      busy := fun hne => absurd rfl hne }
  · rw [heq]
    have hpopped : Charged w { s with waiting := waiting } := h.congr (.refl _) rfl (.refl _) rfl
    exact hpopped.dispatchStamped hpol (hroom.congr (fun _ => rfl) rfl) p

section Round

variable {e : Event n} {q : EventQueue n}

theorem Charged.popped (h : Charged w s) (hq : s.eventQueue.items = e :: q.items) :
    Charged w (s.popped e q) := by
  have hcongr : Charged w { s with eventQueue := q, handled := s.handled ++ [e] } := by
    refine h.congr (.refl _) rfl ?_ rfl
    rw [hq]
    exact List.sublist_cons_self e q.items
  exact { hcongr with now := (h.queued e (hq ▸ List.mem_cons_self)).1 }

theorem Charged.affords_arrival (h : Charged w s) (hq : s.eventQueue.items = e :: q.items)
    (he : e.type = .arrival p) : (s.popped e q).Affords w := by
  have htime := (h.queued e (hq ▸ List.mem_cons_self)).arrivalTime he
  have hlatest := w.arrivalTime_le_latest p
  have hwork : s.workLeft ≤ ∑ p, w.burstTime p := Finset.sum_le_sum fun p _ => (h.left p).2
  show e.time + s.workLeft ≤ w.latestArrival + _
  omega

theorem Charged.affords_end (h : Charged w s) (hq : s.eventQueue.items = e :: q.items)
    (he : e.endsSegment = true) : (s.popped e q).Affords w :=
  h.room e (hq ▸ List.mem_cons_self) he

theorem Funded.affords_boost (h : Funded w s) (hq : s.eventQueue.items = e :: q.items)
    (hrun : s.running ≠ none) : (s.popped e q).Affords w := by
  obtain ⟨e', he', hend⟩ := h.busy hrun
  have hroom := h.room e' he' hend
  have hle : e.time ≤ e'.time := by
    rw [hq] at he'
    rcases List.mem_cons.mp he' with rfl | he'
    · exact le_rfl
    · exact List.rel_of_pairwise_cons (hq ▸ h.ordered : TimeOrdered (e :: q.items)) he'
  show e.time + s.workLeft ≤ w.horizon
  omega

theorem Funded.busy_popped (h : Funded w s) (hq : s.eventQueue.items = e :: q.items)
    (he : e.endsSegment = false) (hrun : s.running ≠ none) :
    ∃ e' ∈ q.items, e'.endsSegment = true := by
  obtain ⟨e', he', hend⟩ := h.busy hrun
  rw [hq] at he'
  rcases List.mem_cons.mp he' with rfl | he'
  · exact absurd (he.symm.trans hend) Bool.false_ne_true
  · exact ⟨e', he', hend⟩

theorem Charged.addWaiting (h : Charged w s) (p : Fin n) : Charged w (s.addWaiting p) :=
  h.congr (pol.enqueue_sameTimes s.processes s.waiting p) rfl (.refl _) rfl

theorem Affords.addWaiting (h : s.Affords w) (p : Fin n) : (s.addWaiting p).Affords w :=
  h.congr (pol.enqueue_sameTimes s.processes s.waiting p).remainingTime rfl

theorem Funded.arrival (hpol : pol.Valid) (h : Funded w s)
    (hq : s.eventQueue.items = e :: q.items) (he : e.type = .arrival p) :
    Funded w ((s.popped e q).handleArrival p) := by
  have hpopped := h.toCharged.popped hq
  have hroom := h.affords_arrival hq he
  cases hrun : s.running with
  | none =>
    rw [handleArrival_eq_of_idle hrun]
    exact hpopped.dispatch hpol hroom p _
  | some r =>
    by_cases hpre : pol.isStcf ∧ (s.processes p).remainingTime < (s.processes r).remainingTime
    · rw [handleArrival_eq_of_preempt hrun hpre]
      -- the segment that is cancelled stays charged to the process it was for
      have hcancelled : Charged w { s.popped e q with eventQueue := removeEventForProcess q r } :=
        hpopped.congr (.refl _) rfl List.eraseP_sublist rfl
      have hroom' : ({ s.popped e q with eventQueue := removeEventForProcess q r } :
          SchedulerState pol n).Affords w := hroom
      exact (hcancelled.addWaiting r).dispatch hpol (hroom'.addWaiting r) p _
    · rw [handleArrival_eq_of_wait hrun hpre]
      have hne : s.running ≠ none := by simp [hrun]
      exact { hpopped.addWaiting p with
        idle := fun hnone => absurd hnone hne
        busy := h.busy_popped hq (by rw [Event.endsSegment, he]) }

theorem putBack_sameTimes (s : SchedulerState pol n) (p : Fin n) :
    SameTimes s.processes (s.putBack p).processes := by
  cases pol with
  | mlfq config h => exact mlfqPutBack_sameTimes s.processes s.waiting p
  | rr quantumTime => exact .refl _
  | _ => exact Policy.enqueue_sameTimes _ s.processes s.waiting p

theorem requeued_sameTimes (s : SchedulerState pol n) :
    SameTimes s.processes s.requeued.processes := by
  cases hrun : s.running with
  | none =>
    rw [requeued_of_idle hrun]
    exact .refl _
  | some r =>
    rw [requeued_of_running hrun]
    exact putBack_sameTimes s r

theorem stampRunning_charged (h : Charged w s) (hroom : s.Affords w) :
    Charged w s.stampRunning ∧
      (∀ p, (s.stampRunning.processes p).remainingTime = (s.processes p).remainingTime) ∧
      s.stampRunning.currentTime = s.currentTime := by
  unfold stampRunning
  split
  · rename_i r _
    exact ⟨h.ensureFinish r h.now (h.now_le hroom), ensureFinish_remainingTime s r _,
      ensureFinish_currentTime s r _⟩
  · exact ⟨h, fun _ => rfl, rfl⟩

theorem Funded.segmentEnd (hpol : pol.Valid) (h : Funded w s)
    (hq : s.eventQueue.items = e :: q.items) (he : e.endsSegment = true) :
    Funded w ((s.popped e q).handleEvent e) := by
  have hpopped := h.toCharged.popped hq
  have hroom := h.affords_end hq he
  have hcompletion : Funded w (s.popped e q).handleCompletion := by
    obtain ⟨hcharged, hrem, hnow⟩ := stampRunning_charged hpopped hroom
    have hreleased : Charged w (s.popped e q).released :=
      hcharged.congr (.refl _) rfl (.refl _) rfl
    rw [handleCompletion_eq_dispatchNext]
    exact hreleased.dispatchNext hpol (fun _ => hroom.congr hrem hnow) _
  have hexpire : Funded w (s.popped e q).handleQuantumExpire := by
    have hsame := requeued_sameTimes (s.popped e q)
    have hrest : (s.popped e q).requeued.currentTime = (s.popped e q).currentTime ∧
        (s.popped e q).requeued.eventQueue = (s.popped e q).eventQueue ∧
        (s.popped e q).requeued.enqueued = (s.popped e q).enqueued := by
      unfold requeued
      split <;> exact ⟨rfl, rfl, rfl⟩
    rw [handleQuantumExpire_eq_next]
    exact (hpopped.congr hsame hrest.1 (by rw [hrest.2.1]) hrest.2.2).expireNext hpol
      (hroom.congr hsame.remainingTime hrest.1)
  unfold Event.endsSegment at he
  unfold handleEvent
  cases htype : e.type with
  | completion p => exact hcompletion
  | quantumExpire p => exact hexpire
  | _ => simp [htype] at he

theorem boostRunning_sameTimes {config : MLFQConfig} {hpos : 0 < config.numLevels}
    (s : SchedulerState (.mlfq config hpos) n) (r : Fin n) :
    SameTimes s.processes (s.boostRunning r).processes := by
  have hlifted := mlfqPriorityBoost_sameTimes s.processes s.waiting
  have hreset := SameTimes.modify (mlfqPriorityBoost s.processes s.waiting).1 r (f := resetPriority)
    fun _ => rfl
  exact (hlifted.trans hreset).trans
    (mlfqEnqueue_sameTimes _ (mlfqPriorityBoost s.processes s.waiting).2 r)

theorem boostWaiting_charged (h : Charged w s) :
    Charged w (handlePriorityBoost.boostWaiting s) ∧
      (handlePriorityBoost.boostWaiting s).workLeft = s.workLeft := by
  have hsame : SameTimes s.processes (handlePriorityBoost.boostWaiting s).processes :=
    pol.priorityBoost_sameTimes s.processes
  exact ⟨h.congr hsame rfl (.refl _) rfl, workLeft_congr hsame.remainingTime⟩

theorem Funded.priorityBoost (hpol : pol.Valid) (h : Funded w s)
    (hq : s.eventQueue.items = e :: q.items) (he : e.type = .priorityBoost) :
    Funded w (s.popped e q).handlePriorityBoost := by
  have hpopped := h.toCharged.popped hq
  have hbusy := h.busy_popped hq (by rw [Event.endsSegment, he])
  have hkeep : Funded w (s.popped e q) := { hpopped with idle := h.idle, busy := hbusy }
  cases pol with
  | mlfq config hpos =>
    obtain ⟨hboosted, hwork⟩ := boostWaiting_charged hpopped
    have hmembers := boostWaiting_members (s.popped e q)
    rcases (s.popped e q).handlePriorityBoost_cases with ⟨hrun, heq⟩ | ⟨r, _, _, heq⟩ |
      ⟨r, hrun, _, heq | heq⟩
    · rw [heq]
      refine hboosted.dispatchNext hpol (fun hne => absurd ?_ hne) false
      rw [hmembers]
      exact h.idle hrun
    · rw [heq]
      exact hkeep
    · rw [heq]
      exact { hboosted with
        idle := fun hnone => absurd (hrun.symm.trans hnone) (Option.some_ne_none r)
        busy := hbusy }
    · rw [heq]
      have hne : s.running ≠ none := hrun ▸ Option.some_ne_none r
      have hsame := boostRunning_sameTimes (s.popped e q) r
      exact (hpopped.congr hsame rfl (.refl _) rfl).dispatchNext hpol
        (fun _ => (h.affords_boost hq hne).congr hsame.remainingTime rfl) false
  | _ => exact hkeep

end Round

theorem Funded.step (hpol : pol.Valid) (h : Funded w s) (hb : s.loopBody = some s') :
    Funded w s' := by
  obtain ⟨e, q, hq, rfl⟩ := loopBody_eq_some hb
  cases htype : e.type with
  | arrival p =>
    rw [handleEvent_arrival htype]
    exact h.arrival hpol hq htype
  | priorityBoost =>
    rw [handleEvent_priorityBoost htype]
    exact h.priorityBoost hpol hq htype
  | _ => exact h.segmentEnd hpol hq (by rw [Event.endsSegment, htype])

theorem totalBurst_eq (h : s.processes = w.processes) : s.totalBurst = ∑ p, w.burstTime p := by
  rw [totalBurst, h, Fin.sum_univ_def]
  rfl

theorem maxArrival_eq (h : s.processes = w.processes) : s.maxArrival = w.latestArrival := by
  have hfold : ∀ (l : List (Fin n)) (m : Int),
      l.foldl (fun m i => if w.arrivalTime i > m then w.arrivalTime i else m) m =
        (l.map w.arrivalTime).foldl max m := by
    intro l
    induction l with
    | nil => exact fun _ => rfl
    | cons p l ih =>
      intro m
      have hstep : (if w.arrivalTime p > m then w.arrivalTime p else m) = max m (w.arrivalTime p) := by
        split_ifs <;> omega
      rw [List.foldl_cons, List.map_cons, List.foldl_cons, ← ih, hstep]
  unfold maxArrival Workload.latestArrival
  rw [h, Fin.univ_def]
  exact (hfold (List.finRange n) 0).trans (Multiset.coe_fold_l max 0 _).symm

theorem maxTime_eq (h : s.processes = w.processes) :
    s.maxArrival + s.totalBurst + 1000 = w.horizon + 1000 := by
  rw [maxArrival_eq h, totalBurst_eq h, Workload.horizon]

theorem startState_eq (pol : Policy) (w : Workload n) : startState pol w =
    if pol.isMlfq ∧ 0 < pol.boostPeriod then
      ((initialState pol w).queueArrivals (List.finRange n)).addBoosts pol.boostPeriod
        (w.horizon + 1000) (w.horizon + 1000).toNat pol.boostPeriod
    else (initialState pol w).queueArrivals (List.finRange n) := by
  have hps := (queueArrivals_processes (initialState pol w) (List.finRange n)).1
  rw [← maxTime_eq (hps.trans rfl)]
  rfl

theorem startState_within (pol : Policy) (hw : w.Nonneg) :
    (∀ e ∈ (startState pol w).eventQueue.items, e.Within w) ∧
      ∀ r ∈ (startState pol w).enqueued, r.2.Within w := by
  have hadd : ∀ (s : SchedulerState pol n) (e : Event n) (arrange : Bool), e.Within w →
      ((∀ e ∈ s.eventQueue.items, e.Within w) ∧ ∀ r ∈ s.enqueued, r.2.Within w) →
      (∀ e' ∈ (s.addEvent e arrange).eventQueue.items, e'.Within w) ∧
        ∀ r ∈ (s.addEvent e arrange).enqueued, r.2.Within w := by
    intro s e arrange he h
    constructor
    · intro e' he'
      rcases mem_enqueueEvent.mp he' with rfl | he'
      · exact he
      · exact h.1 e' he'
    · intro r hr
      rcases List.mem_append.mp hr with hr | hr
      · exact h.2 r hr
      · rw [List.mem_singleton.mp hr]
        exact he
  refine startState_induction (fun _ s => (∀ e ∈ s.eventQueue.items, e.Within w) ∧
    ∀ r ∈ s.enqueued, r.2.Within w) ?_ (fun _ p s _ _ _ h => ?_)
    fun _ time s hps _ _ hnonneg hmax h => ?_
  · constructor <;> simp [initialState]
  · exact hadd s _ _ ⟨hw.arrival p, rfl⟩ h
  · exact hadd s _ _ ⟨hnonneg, hmax.trans_eq (maxTime_eq hps)⟩ h

theorem startState_funded (hw : w.Nonneg) : Funded w (startState pol w) := by
  have hstart := startState_starting hw pol
  obtain ⟨hqueued, henqueued⟩ := startState_within pol hw
  exact {
    now := hstart.currentTime.ge
    ordered := hstart.ordered
    left := fun p => by
      rw [hstart.processes]
      exact ⟨hw.burst p, le_rfl⟩
    queued := hqueued
    room := fun e he hend => by
      have hmem : e ∈ segmentEnds (startState pol w).eventQueue.items :=
        List.mem_filter.mpr ⟨he, hend⟩
      rw [hstart.ends] at hmem
      exact absurd hmem List.not_mem_nil
    enqueued := henqueued
    stamped := fun _ p => by
      have hhorizon := w.latestArrival_nonneg.trans hw.latest_le_horizon
      have hunknown : -1 ≤ unknownTime ∧ unknownTime ≤ w.horizon :=
        ⟨le_rfl, (show unknownTime ≤ 0 by decide).trans hhorizon⟩
      rw [hstart.processes]
      exact ⟨hunknown, hunknown⟩
    idle := fun _ => hstart.waiting
    busy := fun hne => absurd hstart.running hne }

theorem Reaches.funded (hw : w.Nonneg) (hpol : pol.Valid)
    (h : Loop.Reaches loopBody (startState pol w) s) : Funded w s :=
  h.invariant (Funded w) (fun _ _ hb ha => ha.step hpol hb) (startState_funded hw)

theorem mem_addBoosts {e : Event n} (period maxTime : Int) (fuel : Nat) (time : Int)
    (he : e ∈ s.eventQueue.items) :
    e ∈ (s.addBoosts period maxTime fuel time).eventQueue.items := by
  induction fuel generalizing s time with
  | zero => exact he
  | succ fuel ih =>
    rw [addBoosts]
    split_ifs
    · exact ih _ (mem_enqueueEvent.mpr (.inr he))
    · exact he

theorem addBoosts_complete {period maxTime : Int} (hperiod : 0 < period) (fuel : Nat) (time : Int)
    (k : Nat) (hk : k < fuel) (hmax : time + k * period ≤ maxTime) :
    ⟨time + k * period, .priorityBoost⟩ ∈
      (s.addBoosts period maxTime fuel time).eventQueue.items := by
  induction k generalizing s fuel time with
  | zero =>
    obtain ⟨fuel, rfl⟩ : ∃ f, fuel = f + 1 := ⟨fuel - 1, by omega⟩
    simp only [Nat.cast_zero, zero_mul, add_zero] at hmax ⊢
    rw [addBoosts, if_pos hmax]
    exact mem_addBoosts period maxTime fuel _ (mem_enqueueEvent.mpr (.inl rfl))
  | succ k ih =>
    obtain ⟨fuel, rfl⟩ : ∃ f, fuel = f + 1 := ⟨fuel - 1, by omega⟩
    have hnext : time + (k + 1 : Nat) * period = time + period + k * period := by
      push_cast
      ring
    have hnonneg : 0 ≤ (k : Int) * period := Int.mul_nonneg (Int.natCast_nonneg k) hperiod.le
    rw [hnext] at hmax ⊢
    rw [addBoosts, if_pos (by omega)]
    exact ih fuel (time + period) (by omega) hmax

theorem startState_boost (hperiod : 0 < pol.boostPeriod) {k : Int} (hk : 1 ≤ k)
    (hmax : k * pol.boostPeriod ≤ w.horizon + 1000) :
    ⟨k * pol.boostPeriod, .priorityBoost⟩ ∈ (startState pol w).eventQueue.items := by
  have hmlfq : pol.isMlfq = true := by
    cases pol with
    | mlfq config h => rfl
    | _ => simp [Policy.boostPeriod] at hperiod
  -- the fuel is the horizon itself: no period is shorter than one time unit
  obtain ⟨j, rfl⟩ : ∃ j : Nat, k = j + 1 := ⟨(k - 1).toNat, by omega⟩
  have htime : (j + 1 : Int) * pol.boostPeriod = pol.boostPeriod + j * pol.boostPeriod := by ring
  have hle : (j : Int) ≤ j * pol.boostPeriod :=
    le_mul_of_one_le_right (Int.natCast_nonneg j) hperiod
  rw [htime] at hmax ⊢
  rw [startState_eq, if_pos ⟨hmlfq, hperiod⟩]
  exact addBoosts_complete hperiod _ _ j (by omega) hmax

/-- No time that the run has computed overflows, and no boost is missing so far. -/
structure InRange (w : Workload n) (s : SchedulerState pol n) : Prop where
  times : ∀ r ∈ s.enqueued, FitsInt r.2.time
  maxTime : FitsInt ((initialState pol w).maxArrival + (initialState pol w).totalBurst + 1000)
  nextBoost : 0 < pol.boostPeriod →
    ∀ r ∈ s.enqueued, r.2.type = .priorityBoost → FitsInt (r.2.time + pol.boostPeriod)
  boosts : 0 < pol.boostPeriod →
    ∀ r ∈ s.enqueued, ∀ p, r.2.type = .completion p → ∀ k : Int, 1 ≤ k →
      k * pol.boostPeriod ≤ r.2.time →
      ⟨k * pol.boostPeriod, .priorityBoost⟩ ∈ (startState pol w).eventQueue.items

theorem Charged.inRange (hw : w.Nonneg) (h : Charged w s)
    (hfits : w.horizon + 1000 + max 0 pol.boostPeriod ≤ intMax) : InRange w s := by
  have hnonneg : 0 ≤ w.horizon := w.latestArrival_nonneg.trans hw.latest_le_horizon
  have hlow : intMin ≤ 0 := by decide
  refine ⟨fun r hr => ?_, ?_, fun hperiod r hr _ => ?_, fun hperiod r hr p htype k hk hle => ?_⟩
  · have hmax := (h.enqueued r hr).le_buffer hw
    have hmin := (h.enqueued r hr).1
    exact ⟨by omega, by omega⟩
  · rw [maxTime_eq rfl]
    exact ⟨by omega, by omega⟩
  · have hmax := (h.enqueued r hr).le_buffer hw
    have hmin := (h.enqueued r hr).1
    exact ⟨by omega, by omega⟩
  · have hmax := (h.enqueued r hr).of_endsSegment (by rw [Event.endsSegment, htype])
    exact startState_boost hperiod hk (by omega)

end SchedulerState

open SchedulerState

/-- The horizon bounds the end of every segment; where it fits in an `int` together with its
buffer and one more period, nothing overflows and every boost is there. -/
theorem horizon_bounds (hw : w.Nonneg) (hpol : pol.Valid) {s : SchedulerState pol n}
    (h : Loop.Reaches loopBody (startState pol w) s) :
    (∀ r ∈ s.enqueued, r.2.endsSegment = true → r.2.time ≤ w.horizon) ∧
      (w.horizon + 1000 + max 0 pol.boostPeriod ≤ intMax → InRange w s) := by
  have hfunded := Reaches.funded hw hpol h
  exact ⟨fun r hr hend => (hfunded.enqueued r hr).of_endsSegment hend, hfunded.toCharged.inRange hw⟩

theorem boostWorkload_nonneg : boostWorkload.Nonneg := ⟨by decide, by decide⟩

/-- The boost that cuts a segment short leaves the bound in place. -/
theorem horizon_bounds_boosted :
    let s := Loop.advance loopBody 4 (startState boostPolicy boostWorkload)
    (∀ r ∈ s.enqueued, r.2.endsSegment = true → r.2.time ≤ boostWorkload.horizon) ∧
      (boostWorkload.horizon + 1000 + max 0 boostPolicy.boostPeriod ≤ intMax →
        InRange boostWorkload s) :=
  horizon_bounds boostWorkload_nonneg boostPolicy_valid (Loop.reaches_advance loopBody 4 _)

end OsLab.Sched
