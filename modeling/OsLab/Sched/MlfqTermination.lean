import OsLab.Foundation.Interleaving
import OsLab.Sched.Runs

/-! Termination of the event loop under MLFQ. The validator accepts any quantum, and levels that
the file leaves out have quantum 0. A dispatch makes progress when its level's quantum is positive
or unlimited, or when the process passes through the level: it has nothing left, or it will be
demoted at the next expiry. If every dispatch makes progress the loop ends, with boosts or
without. -/

namespace OsLab.Sched

open Interleaving (sum_update)

variable {n : Nat}

/-- A dispatch of the process `r` does not go back in time, and does not leave it as it was. -/
def MakesProgress (config : MLFQConfig) (r : Process) : Prop :=
  mlfqGetQuantum config r.priority = -1 ∨ 1 ≤ mlfqGetQuantum config r.priority ∨
    mlfqGetQuantum config r.priority = 0 ∧ (r.remainingTime = 0 ∨ Demotes config r)

instance (config : MLFQConfig) (r : Process) : Decidable (MakesProgress config r) :=
  inferInstanceAs (Decidable (_ ∨ _ ∨ _))

theorem MakesProgress.runTime {config : MLFQConfig} {r : Process} (h : MakesProgress config r)
    (hrem : 0 ≤ r.remainingTime) (now : Int) :
    0 ≤ (scheduleMlfq config now r).2 ∧ (scheduleMlfq config now r).2 ≤ r.remainingTime ∧
      ((scheduleMlfq config now r).2 = 0 → r.remainingTime = 0 ∨ Demotes config r) := by
  rw [scheduleMlfq_runTime]
  rcases h with h | h | ⟨h, hpass⟩
  · rw [if_pos h]
    exact ⟨hrem, le_rfl, .inl⟩
  · rw [if_neg (by omega)]
    exact ⟨by omega, min_le_left _ _, fun hzero => .inl (by omega)⟩
  · rw [if_neg (by omega), h]
    exact ⟨by omega, min_le_left _ _, fun _ => hpass⟩

def need (config : MLFQConfig) (r : Process) : Nat :=
  r.remainingTime.toNat + 2 * (config.numLevels - r.priority).toNat

def Event.cost (e : Event n) : Nat :=
  match e.type with
  | .quantumExpire _ => 2
  | .completion _ => 1
  | _ => 0

def cost (events : List (Event n)) : Nat := (events.map Event.cost).sum

def external (events : List (Event n)) : List (Event n) := events.filter fun e => !e.endsSegment

theorem cost_enqueueEvent (ps : Table n) (q : EventQueue n) (e : Event n) (arrange : Bool) :
    cost (enqueueEvent ps q e arrange).items = e.cost + cost q.items :=
  (((insertBefore_perm (stopsAt ps arrange e) e q.items).map Event.cost).sum_eq).trans (by simp [cost])

theorem external_enqueueEvent (ps : Table n) (q : EventQueue n) {e : Event n} (arrange : Bool)
    (he : e.endsSegment = true) :
    (external (enqueueEvent ps q e arrange).items).length = (external q.items).length := by
  have h := (insertBefore_perm (stopsAt ps arrange e) e q.items).filter fun e => !e.endsSegment
  rw [List.filter_cons_of_neg (by simp [he])] at h
  exact h.length_eq

namespace SchedulerState

variable {config : MLFQConfig} {hpos : 0 < config.numLevels}
variable {s s' : SchedulerState (.mlfq config hpos) n} {p : Fin n}

structure Sound (s : SchedulerState (.mlfq config hpos) n) : Prop where
  remaining : ∀ p, 0 ≤ (s.processes p).remainingTime
  time : 0 ≤ s.currentTime
  events : ∀ e ∈ s.eventQueue.items, 0 ≤ e.time
  enqueued : ∀ r ∈ s.enqueued, r.1 ≤ r.2.time

def Idle (s : SchedulerState (.mlfq config hpos) n) : Prop :=
  s.running = none → Policy.members _ s.waiting = []

def debt (s : SchedulerState (.mlfq config hpos) n) : Nat :=
  ∑ p, need config (s.processes p) + cost s.eventQueue.items

def stays (s : SchedulerState (.mlfq config hpos) n) : Nat :=
  match s.running with
  | some p => if Demotes config (s.processes p) then 0 else 1
  | none => 0

def present (s : SchedulerState (.mlfq config hpos) n) : Nat :=
  (Policy.members _ s.waiting).length + s.running.toList.length

def budget (s : SchedulerState (.mlfq config hpos) n) : Nat :=
  3 * s.present + s.debt + s.stays

def mlfqMeasure (s : SchedulerState (.mlfq config hpos) n) : ℕ ×ₗ ℕ :=
  toLex ((external s.eventQueue.items).length, s.budget)

theorem startSegment_mlfq (s : SchedulerState (.mlfq config hpos) n) (p : Fin n) :
    ((s.startSegment p).1.processes p).remainingTime =
        (s.processes p).remainingTime - s.runTime p ∧
      ((s.startSegment p).1.processes p).priority = (s.processes p).priority ∧
      ((s.startSegment p).1.processes p).timeInQueue =
        (s.processes p).timeInQueue + s.runTime p ∧
      (((s.startSegment p).1.processes p).remainingTime = 0 →
        ((s.startSegment p).1.processes p).finishTime = s.currentTime + s.runTime p) := by
  obtain ⟨hrem, hpriority, htime, hfinish⟩ :=
    scheduleMlfq_record config s.currentTime (s.processes p)
  have hrecord : (s.startSegment p).1.processes p =
      { (scheduleMlfq config s.currentTime (s.processes p)).1 with
        remainingTime := (s.processes p).remainingTime - s.runTime p } := by
    rw [← hrem]
    exact Function.update_self ..
  rw [hrecord]
  refine ⟨rfl, hpriority, htime, fun hzero => hfinish ?_⟩
  change (s.processes p).remainingTime - s.runTime p = 0 at hzero
  exact (sub_eq_zero.mp hzero).symm

theorem dispatch_processes_of_ne {q : Fin n} (hq : q ≠ p) (arrange : Bool) :
    (s.dispatch p arrange).processes q = s.processes q := Function.update_of_ne hq ..

theorem dispatch_enqueued (s : SchedulerState (.mlfq config hpos) n) (p : Fin n) (arrange : Bool) :
    ∃ e : Event n, e.time = s.currentTime + s.runTime p ∧ e.endsSegment = true ∧
      e.cost = (if (s.processes p).remainingTime - s.runTime p = 0 then 1 else 2) ∧
      (s.dispatch p arrange).enqueued = s.enqueued ++ [(s.currentTime, e)] ∧
      (s.dispatch p arrange).eventQueue =
        enqueueEvent (s.startSegment p).1.processes s.eventQueue e arrange := by
  refine ⟨⟨s.currentTime + s.runTime p, if ((s.startSegment p).1.processes p).remainingTime = 0
    then .completion p else .quantumExpire p⟩, rfl, ?_, ?_, rfl, rfl⟩
  · unfold Event.endsSegment
    dsimp only
    split_ifs <;> rfl
  · unfold Event.cost
    dsimp only
    rw [(startSegment_mlfq s p).1]
    split_ifs <;> rfl

/-- No dispatch so far has gone back in time, seen from the queued events or from the dispatches
themselves. -/
def Timely (s : SchedulerState (.mlfq config hpos) n) : Prop :=
  (∀ r ∈ s.enqueued, r.1 ≤ r.2.time) ∨ ∀ d ∈ s.dispatches, MakesProgress config d.record

theorem mem_dispatch_dispatches (s : SchedulerState (.mlfq config hpos) n) (p : Fin n)
    (arrange : Bool) : ⟨p, s.currentTime, s.runTime p, s.processes p, s.eventQueue⟩ ∈
      (s.dispatch p arrange).dispatches :=
  List.mem_append_right _ (List.mem_singleton_self _)

theorem Timely.runTime_nonneg {arrange : Bool} (h : Timely (s.dispatch p arrange))
    (hrem : 0 ≤ (s.processes p).remainingTime) : 0 ≤ s.runTime p := by
  rcases h with h | h
  · obtain ⟨e, htime, _, _, henqueued, _⟩ := dispatch_enqueued s p arrange
    have hle := h (s.currentTime, e) (henqueued ▸ List.mem_append_right _ (List.mem_singleton_self _))
    dsimp only at hle
    omega
  · exact ((h _ (mem_dispatch_dispatches s p arrange)).runTime hrem s.currentTime).1

theorem runTime_le (s : SchedulerState (.mlfq config hpos) n) (p : Fin n) :
    s.runTime p ≤ (s.processes p).remainingTime := by
  change (scheduleMlfq config s.currentTime (s.processes p)).2 ≤ _
  rw [scheduleMlfq_runTime]
  split_ifs
  · exact le_rfl
  · exact min_le_left _ _

theorem Sound.dispatch (h : Sound s) (arrange : Bool) (hok : Timely (s.dispatch p arrange)) :
    Sound (s.dispatch p arrange) := by
  have hnonneg := hok.runTime_nonneg (h.remaining p)
  have hle := runTime_le s p
  obtain ⟨e, htime, _, _, henqueued, hqueue⟩ := dispatch_enqueued s p arrange
  have hnow := h.time
  refine ⟨fun q => ?_, h.time, fun e' he' => ?_, fun r hr => ?_⟩
  · rcases eq_or_ne q p with rfl | hq
    · have hrem := (startSegment_mlfq s q).1
      change ((s.startSegment q).1.processes q).remainingTime ≥ 0
      omega
    · rw [dispatch_processes_of_ne hq]
      exact h.remaining q
  · rw [hqueue] at he'
    rcases mem_enqueueEvent.mp he' with rfl | he'
    · omega
    · exact h.events e' he'
  · rw [henqueued] at hr
    rcases List.mem_append.mp hr with hr | hr
    · exact h.enqueued r hr
    · rw [List.mem_singleton.mp hr]
      dsimp only
      omega

theorem need_startSegment (hnonneg : 0 ≤ s.runTime p)
    (hle : s.runTime p ≤ (s.processes p).remainingTime) :
    need config ((s.startSegment p).1.processes p) + (s.runTime p).toNat =
      need config (s.processes p) := by
  obtain ⟨hrem, hpriority, _⟩ := startSegment_mlfq s p
  unfold need
  rw [hrem, hpriority]
  omega

theorem dispatch_debt (hrem : 0 ≤ (s.processes p).remainingTime)
    (hok : MakesProgress config (s.processes p)) (arrange : Bool) :
    (s.dispatch p arrange).debt + (s.dispatch p arrange).stays ≤ s.debt + 2 := by
  obtain ⟨hnonneg, hle, hzero⟩ := hok.runTime hrem s.currentTime
  change 0 ≤ s.runTime p at hnonneg
  change s.runTime p ≤ _ at hle
  change s.runTime p = 0 → _ at hzero
  obtain ⟨e, _, _, hcost, _, hqueue⟩ := dispatch_enqueued s p arrange
  have hsum := sum_update (need config) s.processes p ((s.startSegment p).1.processes p)
  have hneed := need_startSegment hnonneg hle
  have hdebt : (s.dispatch p arrange).debt =
      ∑ q, need config (Function.update s.processes p ((s.startSegment p).1.processes p) q) +
        (e.cost + cost s.eventQueue.items) := by
    have hprocesses : (s.dispatch p arrange).processes =
        Function.update s.processes p ((s.startSegment p).1.processes p) := by
      funext q
      rcases eq_or_ne q p with rfl | hq
      · rw [Function.update_self]
        rfl
      · rw [Function.update_of_ne hq, dispatch_processes_of_ne hq]
    rw [debt, hprocesses, hqueue, cost_enqueueEvent]
  have hstays : (s.dispatch p arrange).stays =
      if Demotes config ((s.startSegment p).1.processes p) then 0 else 1 := rfl
  rw [hdebt, hstays, debt, hcost]
  -- a segment of no time lowers nobody's need, so it must be a last one or end in a demotion
  by_cases hrun : s.runTime p = 0
  · obtain ⟨_, hpriority, htime, _⟩ := startSegment_mlfq s p
    have hdemotes : Demotes config ((s.startSegment p).1.processes p) ↔
        Demotes config (s.processes p) := by
      unfold Demotes
      rw [hpriority, htime, hrun, add_zero]
    rcases hzero hrun with hdone | hpass
    · rw [if_pos (by omega)]
      split_ifs <;> omega
    · rw [if_pos (hdemotes.mpr hpass)]
      split_ifs <;> omega
  · split_ifs <;> omega

theorem Sound.dispatchNext (h : Sound s) (arrange : Bool) (hok : Timely (s.dispatchNext arrange)) :
    Sound (s.dispatchNext arrange) ∧ Idle (s.dispatchNext arrange) := by
  obtain ⟨hnil, heq⟩ | ⟨p, waiting, _, _, heq⟩ := s.dispatchNext_cases arrange
  · rw [heq]
    exact ⟨⟨h.remaining, h.time, h.events, h.enqueued⟩, fun _ => hnil⟩
  · rw [heq] at hok ⊢
    have hs : Sound { s with waiting := waiting } := ⟨h.remaining, h.time, h.events, h.enqueued⟩
    exact ⟨hs.dispatch arrange hok, fun hnone => absurd hnone (Option.some_ne_none p)⟩

theorem dispatchNext_debt (h : Sound s) (arrange : Bool)
    (hok : ∀ d ∈ (s.dispatchNext arrange).dispatches, MakesProgress config d.record) :
    (s.dispatchNext arrange).present ≤ (Policy.members _ s.waiting).length ∧
      (s.dispatchNext arrange).debt + (s.dispatchNext arrange).stays ≤ s.debt + 2 := by
  obtain ⟨hnil, heq⟩ | ⟨p, waiting, _, hmembers, heq⟩ := s.dispatchNext_cases arrange
  · rw [heq, present, hnil]
    exact ⟨le_rfl, Nat.le_add_right _ 2⟩
  · rw [heq] at hok ⊢
    have hp := hok _ (mem_dispatch_dispatches { s with waiting := waiting } p arrange)
    rw [hmembers]
    exact ⟨le_rfl, dispatch_debt (s := { s with waiting := waiting }) (h.remaining p) hp arrange⟩

theorem dispatchNext_idle (hnil : Policy.members _ s.waiting = []) (arrange : Bool) :
    (s.dispatchNext arrange).present = 0 ∧ (s.dispatchNext arrange).debt = s.debt ∧
      (s.dispatchNext arrange).stays = 0 := by
  rw [dispatchNext_of_empty hnil]
  refine ⟨?_, rfl, rfl⟩
  rw [present, hnil]
  rfl

theorem putBack_mlfq (s : SchedulerState (.mlfq config hpos) n) (p : Fin n) :
    s.putBack p = { s with
      processes := (mlfqPutBack s.processes s.waiting p).1
      waiting := (mlfqPutBack s.processes s.waiting p).2 } := rfl

theorem sameTimes_sound (h : Sound s) {ps : Table n} (hps : SameTimes s.processes ps)
    (running : Option (Fin n)) (waiting : Policy.Queue n (.mlfq config hpos)) :
    Sound { s with processes := ps, running := running, waiting := waiting } :=
  ⟨fun p => (hps.remainingTime p).symm ▸ h.remaining p, h.time, h.events, h.enqueued⟩

theorem sum_need_modify (ps : Table n) (p : Fin n) (f : Process → Process) {k : Nat}
    (hf : need config (f (ps p)) + k ≤ need config (ps p)) :
    ∑ q, need config (ps.modify p f q) + k ≤ ∑ q, need config (ps q) := by
  have hsum := sum_update (need config) ps p (f (ps p))
  change ∑ q, need config (ps.modify p f q) + _ = _ at hsum
  omega

theorem putBack_debt (s : SchedulerState (.mlfq config hpos) n) (p : Fin n) :
    (s.putBack p).debt + (if Demotes config (s.processes p) then 2 else 0) ≤ s.debt := by
  rw [putBack_mlfq]
  unfold debt
  dsimp only
  by_cases hd : Demotes config (s.processes p)
  · have hneed : need config { s.processes p with
        priority := (s.processes p).priority + 1, timeInQueue := 0 } + 2 ≤
          need config (s.processes p) := by
      have := hd.2.2
      simp only [need]
      omega
    have hsum := sum_need_modify s.processes p
      (fun r => { r with priority := (s.processes p).priority + 1, timeInQueue := 0 }) hneed
    rw [(mlfqPutBack_of_demotes s.waiting hd).1, if_pos hd]
    omega
  · rw [mlfqPutBack_of_not_demotes s.waiting hd, if_neg hd]
    simp only [mlfqEnqueue]
    split_ifs with hnew
    · have hneed : need config (resetPriority (s.processes p)) + 0 ≤ need config (s.processes p) := by
        simp only [need, resetPriority, hnew, unknownTime]
        omega
      have hsum := sum_need_modify s.processes p resetPriority hneed
      omega
    · omega

theorem putBack_length (s : SchedulerState (.mlfq config hpos) n) (p : Fin n) :
    (Policy.members _ (s.putBack p).waiting).length ≤ (Policy.members _ s.waiting).length + 1 := by
  rw [putBack_mlfq]
  by_cases hd : Demotes config (s.processes p)
  · refine (mlfqPutBack_of_demotes s.waiting hd).2.length_eq.le.trans ?_
    exact Nat.succ_le_succ (Levels.length_members_remove _ _ _)
  · rw [mlfqPutBack_of_not_demotes s.waiting hd]
    exact (mlfqEnqueue_members s.processes s.waiting p).length_eq.le

theorem Sound.expireNext_eq (h : Sound s) :
    handleQuantumExpire.next s = s.dispatchNext (Policy.sortByBurstTime (.mlfq config hpos)) := by
  refine SchedulerState.expireNext_eq fun p waiting _ => dispatchStamped_eq fun hzero => ?_
  obtain ⟨hrem, _, _, hfinish⟩ := startSegment_mlfq { s with waiting := waiting } p
  rw [hfinish hzero]
  have := h.remaining p
  have := h.time
  dsimp only at *
  omega

section Round

variable {e : Event n} {q : EventQueue n}

theorem Sound.popped (h : Sound s) (hq : s.eventQueue.items = e :: q.items) :
    Sound (s.popped e q) :=
  ⟨h.remaining, h.events e (hq ▸ List.mem_cons_self),
    fun e' he' => h.events e' (hq ▸ List.mem_cons_of_mem e he'), h.enqueued⟩

theorem popped_debt (hq : s.eventQueue.items = e :: q.items) :
    (s.popped e q).debt + e.cost = s.debt := by
  unfold debt
  rw [hq]
  simp only [SchedulerState.popped, cost, List.map_cons, List.sum_cons]
  omega

theorem external_handleEvent (s : SchedulerState (.mlfq config hpos) n) (e : Event n) :
    (external (s.handleEvent e).eventQueue.items).length =
      (external s.eventQueue.items).length := by
  obtain ⟨q, hq, hqueues⟩ := handleEvent_queues s e
  obtain rfl : q = s.eventQueue := hq.resolve_right fun hstcf => absurd hstcf.1 (by simp [Policy.isStcf])
  rcases hqueues with hqueue | ⟨ps, e', arrange, hend, hqueue⟩
  · rw [hqueue]
  · rw [hqueue, external_enqueueEvent _ _ _ hend]

theorem mlfqMeasure_lt_of_external (hq : s.eventQueue.items = e :: q.items)
    (he : e.endsSegment = false) : ((s.popped e q).handleEvent e).mlfqMeasure < s.mlfqMeasure := by
  refine Prod.Lex.toLex_lt_toLex.mpr (.inl ?_)
  rw [external_handleEvent, hq, external, external, List.filter_cons_of_pos (by simp [he])]
  exact Nat.lt_succ_self _

theorem mlfqMeasure_lt_of_budget (hq : s.eventQueue.items = e :: q.items)
    (he : e.endsSegment = true) (h : ((s.popped e q).handleEvent e).budget < s.budget) :
    ((s.popped e q).handleEvent e).mlfqMeasure < s.mlfqMeasure := by
  refine Prod.Lex.toLex_lt_toLex.mpr (.inr ⟨?_, h⟩)
  rw [external_handleEvent, hq, external, external, List.filter_cons_of_neg (by simp [he])]
  rfl

theorem Sound.arrival (h : Sound s) (hok : Timely (s.handleArrival p)) :
    Sound (s.handleArrival p) ∧ Idle (s.handleArrival p) := by
  unfold handleArrival at hok ⊢
  cases hrun : s.running with
  | none =>
    simp only [hrun] at hok ⊢
    exact ⟨h.dispatch _ hok, fun hnone => absurd hnone (Option.some_ne_none p)⟩
  | some r =>
    simp only [Policy.isStcf, Bool.false_eq_true, false_and, if_false]
    exact ⟨sameTimes_sound h (Policy.enqueue_sameTimes _ s.processes s.waiting p) s.running _,
      fun hnone => absurd (hrun.symm.trans hnone) (Option.some_ne_none r)⟩

theorem stampRunning_processes (s : SchedulerState (.mlfq config hpos) n) (q : Fin n) :
    (s.stampRunning.processes q).remainingTime = (s.processes q).remainingTime ∧
      (s.stampRunning.processes q).priority = (s.processes q).priority ∧
      (s.stampRunning.processes q).timeInQueue = (s.processes q).timeInQueue := by
  unfold stampRunning ensureFinish
  split
  · split_ifs
    · exact ⟨Table.modify_field Process.remainingTime s.processes _ _ rfl q,
        Table.modify_field Process.priority s.processes _ _ rfl q,
        Table.modify_field Process.timeInQueue s.processes _ _ rfl q⟩
    · exact ⟨rfl, rfl, rfl⟩
  · exact ⟨rfl, rfl, rfl⟩

theorem stampRunning_frame (s : SchedulerState (.mlfq config hpos) n) :
    s.stampRunning.waiting = s.waiting ∧ s.stampRunning.eventQueue = s.eventQueue ∧
      s.stampRunning.currentTime = s.currentTime ∧ s.stampRunning.enqueued = s.enqueued := by
  unfold stampRunning ensureFinish
  split
  · split_ifs <;> exact ⟨rfl, rfl, rfl, rfl⟩
  · exact ⟨rfl, rfl, rfl, rfl⟩

theorem released_members (s : SchedulerState (.mlfq config hpos) n) :
    Policy.members _ s.released.waiting = Policy.members _ s.waiting :=
  congrArg _ (stampRunning_frame s).1

theorem released_dispatches (s : SchedulerState (.mlfq config hpos) n) :
    s.released.dispatches = s.dispatches := by
  unfold released stampRunning ensureFinish
  dsimp only
  split
  · split_ifs <;> rfl
  · rfl

theorem released_debt (s : SchedulerState (.mlfq config hpos) n) : s.released.debt = s.debt := by
  unfold debt need released
  dsimp only
  rw [(stampRunning_frame s).2.1]
  simp only [stampRunning_processes]

theorem Sound.released (h : Sound s) : Sound s.released := by
  obtain ⟨_, hqueue, htime, henqueued⟩ := stampRunning_frame s
  refine ⟨fun q => ?_, ?_, ?_, ?_⟩
  · exact (stampRunning_processes s q).1 ▸ h.remaining q
  · exact htime ▸ h.time
  · exact hqueue ▸ h.events
  · exact henqueued ▸ h.enqueued

theorem Sound.requeued (h : Sound s) : Sound s.requeued := by
  cases hrun : s.running with
  | none => rwa [requeued_of_idle hrun]
  | some r =>
    rw [requeued_of_running hrun]
    exact sameTimes_sound h (mlfqPutBack_sameTimes _ _ r) s.running _

theorem Sound.handleQuantumExpire_eq (h : Sound s) :
    s.handleQuantumExpire =
      s.requeued.dispatchNext (Policy.sortByBurstTime (.mlfq config hpos)) := by
  rw [handleQuantumExpire_eq_next, h.requeued.expireNext_eq]

theorem Sound.priorityBoost (h : Sound s) (hidle : Idle s) (hok : Timely s.handlePriorityBoost) :
    Sound s.handlePriorityBoost ∧ Idle s.handlePriorityBoost := by
  have hboost := mlfqPriorityBoost_sameTimes s.processes s.waiting
  unfold handlePriorityBoost at hok ⊢
  simp only [Policy.isMlfq, not_true_eq_false, if_false] at hok ⊢
  cases hrun : s.running with
  | none =>
    simp only [hrun, reschedule_eq_dispatchNext] at hok ⊢
    exact (sameTimes_sound h hboost s.running _).dispatchNext false hok
  | some r =>
    simp only [hrun, reschedule_eq_dispatchNext] at hok ⊢
    split_ifs at hok ⊢ with hzero hpos
    · exact ⟨h, hidle⟩
    -- the interrupted process is reset and queued, and the highest level is dispatched
    · have hreset := hboost.trans (.modify _ r (f := resetPriority) fun _ => rfl)
      have henqueue := hreset.trans
        (mlfqEnqueue_sameTimes _ (mlfqPriorityBoost s.processes s.waiting).2 r)
      exact (sameTimes_sound h henqueue none _).dispatchNext false hok
    · exact ⟨sameTimes_sound h hboost (some r) _, fun hnone => absurd hnone (Option.some_ne_none r)⟩

theorem Sound.round (h : Sound s) (hidle : Idle s) (hb : s.loopBody = some s') (hok : Timely s') :
    Sound s' ∧ Idle s' := by
  obtain ⟨e, q, hq, rfl⟩ := loopBody_eq_some hb
  have hpopped := h.popped hq
  unfold handleEvent at hok ⊢
  split at hok
  · exact hpopped.arrival hok
  · exact hpopped.released.dispatchNext _ hok
  · rw [hpopped.handleQuantumExpire_eq] at hok ⊢
    exact hpopped.requeued.dispatchNext _ hok
  · exact hpopped.priorityBoost hidle hok

theorem completion_budget (h : Sound s) (hidle : Idle s) (hq : s.eventQueue.items = e :: q.items)
    (he : e.type = .completion p)
    (hok : ∀ d ∈ (s.popped e q).handleCompletion.dispatches, MakesProgress config d.record) :
    (s.popped e q).handleCompletion.budget < s.budget := by
  have hdebt := popped_debt hq
  have hcost : e.cost = 1 := by rw [Event.cost, he]
  have hsame := released_debt (s.popped e q)
  have hmembers : Policy.members _ (s.popped e q).released.waiting = Policy.members _ s.waiting :=
    released_members (s.popped e q)
  rw [handleCompletion_eq_dispatchNext] at hok ⊢
  obtain ⟨hpresent, hle⟩ := dispatchNext_debt (h.popped hq).released _ hok
  rw [hmembers] at hpresent
  unfold budget
  cases hrun : s.running with
  | some r =>
    have : s.present = (Policy.members _ s.waiting).length + 1 := by simp [present, hrun]
    omega
  | none =>
    obtain ⟨hpresent', hdebt', hstays⟩ := dispatchNext_idle
      (hmembers.trans (hidle hrun)) (Policy.sortByBurstTime (.mlfq config hpos))
    omega

theorem quantumExpire_budget (h : Sound s) (hidle : Idle s)
    (hq : s.eventQueue.items = e :: q.items) (he : e.type = .quantumExpire p)
    (hok : ∀ d ∈ (s.popped e q).handleQuantumExpire.dispatches, MakesProgress config d.record) :
    (s.popped e q).handleQuantumExpire.budget < s.budget := by
  have hdebt := popped_debt hq
  have hcost : e.cost = 2 := by rw [Event.cost, he]
  rw [(h.popped hq).handleQuantumExpire_eq] at hok ⊢
  unfold budget
  cases hrun : s.running with
  | none =>
    rw [requeued_of_idle (s := s.popped e q) hrun]
    obtain ⟨hpresent, hdebt', hstays⟩ := dispatchNext_idle (s := s.popped e q) (hidle hrun)
      (Policy.sortByBurstTime (.mlfq config hpos))
    omega
  | some r =>
    have hback := (h.popped hq).requeued
    rw [requeued_of_running (s := s.popped e q) hrun] at hok hback ⊢
    obtain ⟨hpresent, hle⟩ := dispatchNext_debt hback _ hok
    have hputBack := putBack_debt (s.popped e q) r
    have hlength : (Policy.members _ ((s.popped e q).putBack r).waiting).length ≤
        (Policy.members _ s.waiting).length + 1 := putBack_length (s.popped e q) r
    have hpresent' : s.present = (Policy.members _ s.waiting).length + 1 := by simp [present, hrun]
    have hstays : s.stays = if Demotes config (s.processes r) then 0 else 1 := by rw [stays, hrun]
    change _ + (if Demotes config (s.processes r) then 2 else 0) ≤ _ at hputBack
    -- a demotion pays for the next dispatch; without one the stay that has ended does
    split_ifs at hputBack hstays <;> omega

theorem Sound.mlfqMeasure_lt (h : Sound s) (hidle : Idle s) (hb : s.loopBody = some s')
    (hok : ∀ d ∈ s'.dispatches, MakesProgress config d.record) :
    s'.mlfqMeasure < s.mlfqMeasure := by
  obtain ⟨e, q, hq, rfl⟩ := loopBody_eq_some hb
  cases he : e.type with
  | arrival p => exact mlfqMeasure_lt_of_external hq (by rw [Event.endsSegment, he])
  | priorityBoost => exact mlfqMeasure_lt_of_external hq (by rw [Event.endsSegment, he])
  | completion p =>
    refine mlfqMeasure_lt_of_budget hq (by rw [Event.endsSegment, he]) ?_
    rw [handleEvent_completion he] at hok ⊢
    exact completion_budget h hidle hq he hok
  | quantumExpire p =>
    refine mlfqMeasure_lt_of_budget hq (by rw [Event.endsSegment, he]) ?_
    rw [handleEvent_quantumExpire he] at hok ⊢
    exact quantumExpire_budget h hidle hq he hok

end Round

end SchedulerState

open SchedulerState

variable {config : MLFQConfig} {hpos : 0 < config.numLevels} {w : Workload n}

def ProgressRun (config : MLFQConfig) (hpos : 0 < config.numLevels) (w : Workload n) : Prop :=
  ∀ s, Loop.Reaches loopBody (startState (.mlfq config hpos) w) s →
    ∀ d ∈ s.dispatches, MakesProgress config d.record

def NoEarlyEvent (pol : Policy) (w : Workload n) : Prop :=
  ∀ s, Loop.Reaches loopBody (startState pol w) s → ∀ r ∈ s.enqueued, r.1 ≤ r.2.time

theorem startState_sound (hw : w.Nonneg) :
    Sound (startState (.mlfq config hpos) w) ∧ Idle (startState (.mlfq config hpos) w) := by
  have h := startState_starting hw (.mlfq config hpos)
  refine ⟨⟨fun p => ?_, h.currentTime.ge, h.future, h.enqueued⟩, fun _ => h.waiting⟩
  rw [h.processes]
  exact hw.burst p

theorem reaches_sound (hw : w.Nonneg) {s : SchedulerState (.mlfq config hpos) n}
    (h : Loop.Reaches loopBody (startState (.mlfq config hpos) w) s)
    (hok : ∀ t, Loop.Reaches loopBody (startState (.mlfq config hpos) w) t → Timely t) :
    Sound s ∧ Idle s := by
  induction h with
  | refl => exact startState_sound hw
  | tail hr hb ih => exact ih.1.round ih.2 hb (hok _ (hr.tail hb))

theorem ProgressRun.noEarlyEvent (hw : w.Nonneg) (hrun : ProgressRun config hpos w) :
    NoEarlyEvent (.mlfq config hpos) w := fun _ hs =>
  (reaches_sound hw hs fun t ht => .inr (hrun t ht)).1.enqueued

theorem ProgressRun.terminates (hw : w.Nonneg) (hrun : ProgressRun config hpos w) :
    Loop.Terminates loopBody (startState (.mlfq config hpos) w) := by
  refine Loop.terminates_of_measure
    (fun s => Loop.Reaches loopBody (startState (.mlfq config hpos) w) s) wellFounded_lt mlfqMeasure
    (fun a b ha hb => ⟨ha.tail hb, ?_⟩) .refl
  obtain ⟨hsound, hidle⟩ := reaches_sound hw ha fun t ht => .inr (hrun t ht)
  exact hsound.mlfqMeasure_lt hidle hb (hrun b (ha.tail hb))

end OsLab.Sched
