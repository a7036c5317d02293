import OsLab.Sched.Horizon

/-! What the handlers keep. A property of the records, the chart and the dispatches alone is kept by
every step, if the start of a segment and the stamp of a finish time keep it. -/

namespace OsLab.Sched

namespace SchedulerState

variable {n : Nat} {pol : Policy} {w : Workload n} {s s' : SchedulerState pol n}
  {P : SchedulerState pol n → Prop}

/-- The places in the queues apart, the records are the same, and so are chart and dispatches. -/
structure SameRecords (s s' : SchedulerState pol n) : Prop where
  processes : SameTimes s.processes s'.processes
  gantt : s'.gantt = s.gantt
  dispatches : s'.dispatches = s.dispatches

structure Kept (P : SchedulerState pol n → Prop) : Prop where
  frame : ∀ {s s'}, P s → SameRecords s s' → P s'
  startSegment : ∀ {s}, P s → ∀ p, P (s.startSegment p).1
  ensureFinish : ∀ {s}, P s → ∀ p time, P (s.ensureFinish p time)

theorem SameRecords.of_eq (hprocesses : s'.processes = s.processes) (hgantt : s'.gantt = s.gantt)
    (hdispatches : s'.dispatches = s.dispatches) : SameRecords s s' :=
  ⟨by rw [hprocesses]; exact .refl _, hgantt, hdispatches⟩

variable (hk : Kept P)
include hk

theorem Kept.same (h : P s) (hprocesses : s'.processes = s.processes) (hgantt : s'.gantt = s.gantt)
    (hdispatches : s'.dispatches = s.dispatches) : P s' :=
  hk.frame h (.of_eq hprocesses hgantt hdispatches)

theorem Kept.dispatch (h : P s) (p : Fin n) (arrange : Bool) : P (s.dispatch p arrange) :=
  hk.same (hk.startSegment h p) rfl rfl rfl

theorem Kept.dispatchStamped (h : P s) (p : Fin n) :
    P (handleQuantumExpire.dispatchStamped s p) := by
  unfold handleQuantumExpire.dispatchStamped
  dsimp only
  split_ifs
  · exact hk.same (hk.ensureFinish (hk.startSegment h p) p _) rfl rfl rfl
  · exact hk.same (hk.startSegment h p) rfl rfl rfl

theorem Kept.dispatchNext (h : P s) (arrange : Bool) : P (s.dispatchNext arrange) := by
  rcases s.dispatchNext_cases arrange with ⟨_, heq⟩ | ⟨p, waiting, _, _, heq⟩
  · rw [heq]
    exact hk.same h rfl rfl rfl
  · rw [heq]
    have hpopped : P { s with waiting := waiting } := hk.same h rfl rfl rfl
    exact hk.dispatch hpopped p _

theorem Kept.expireNext (h : P s) : P (handleQuantumExpire.next s) := by
  rcases s.expireNext_cases with ⟨_, heq⟩ | ⟨p, waiting, _, heq⟩
  · rw [heq]
    exact hk.same h rfl rfl rfl
  · rw [heq]
    have hpopped : P { s with waiting := waiting } := hk.same h rfl rfl rfl
    exact hk.dispatchStamped hpopped p

theorem Kept.addWaiting (h : P s) (p : Fin n) : P (s.addWaiting p) :=
  hk.frame h ⟨pol.enqueue_sameTimes s.processes s.waiting p, rfl, rfl⟩

theorem Kept.arrival (h : P s) (p : Fin n) : P (s.handleArrival p) := by
  unfold handleArrival
  split
  · exact hk.dispatch h p _
  · rename_i running _
    split
    · have hcancelled :
          P { s with eventQueue := removeEventForProcess s.eventQueue running } :=
        hk.same h rfl rfl rfl
      exact hk.dispatch (hk.addWaiting hcancelled running) p _
    · exact hk.addWaiting h p

theorem Kept.stampRunning (h : P s) : P s.stampRunning := by
  unfold SchedulerState.stampRunning
  split
  · exact hk.ensureFinish h _ _
  · exact h

theorem Kept.completion (h : P s) : P s.handleCompletion := by
  rw [handleCompletion_eq_dispatchNext]
  have hreleased : P s.released := hk.same (hk.stampRunning h) rfl rfl rfl
  exact hk.dispatchNext hreleased _

theorem Kept.quantumExpire (h : P s) : P s.handleQuantumExpire := by
  rw [handleQuantumExpire_eq_next]
  cases hrun : s.running with
  | none =>
    rw [requeued_of_idle hrun]
    exact hk.expireNext h
  | some r =>
    rw [requeued_of_running hrun]
    exact hk.expireNext (hk.frame h ⟨putBack_sameTimes s r, rfl, rfl⟩)

omit hk in
theorem Kept.priorityBoost {config : MLFQConfig} {hpos : 0 < config.numLevels}
    {P : SchedulerState (.mlfq config hpos) n → Prop} (hk : Kept P)
    {s : SchedulerState (.mlfq config hpos) n} (h : P s) : P s.handlePriorityBoost := by
  have hboosted : P (handlePriorityBoost.boostWaiting s) :=
    hk.frame h ⟨mlfqPriorityBoost_sameTimes s.processes s.waiting, rfl, rfl⟩
  rcases s.handlePriorityBoost_cases with ⟨_, heq⟩ | ⟨r, _, _, heq⟩ | ⟨r, _, _, heq | heq⟩
  · rw [heq]
    exact hk.dispatchNext hboosted false
  · rw [heq]
    exact h
  · rw [heq]
    exact hboosted
  · rw [heq]
    have hrunning : P (s.boostRunning r) := hk.frame h ⟨boostRunning_sameTimes s r, rfl, rfl⟩
    exact hk.dispatchNext hrunning false

theorem Kept.step (h : P s) (hb : s.loopBody = some s') : P s' := by
  obtain ⟨e, q, _, rfl⟩ := loopBody_eq_some hb
  have hpopped : P (s.popped e q) := hk.same h rfl rfl rfl
  cases htype : e.type with
  | arrival p =>
    rw [handleEvent_arrival htype]
    exact hk.arrival hpopped p
  | completion p =>
    rw [handleEvent_completion htype]
    exact hk.completion hpopped
  | quantumExpire p =>
    rw [handleEvent_quantumExpire htype]
    exact hk.quantumExpire hpopped
  | priorityBoost =>
    rw [handleEvent_priorityBoost htype]
    cases pol with
    | mlfq config hpos => exact hk.priorityBoost hpopped
    | _ => exact hpopped

theorem Kept.reaches (hinit : P (initialState pol w))
    (h : Loop.Reaches loopBody (startState pol w) s) : P s := by
  refine h.invariant P (fun _ _ hb hs => hk.step hs hb) ?_
  exact startState_induction (fun _ s => P s) hinit
    (fun _ _ _ _ _ _ hs => hk.same hs rfl rfl rfl)
    fun _ _ _ _ _ _ _ _ hs => hk.same hs rfl rfl rfl

end SchedulerState

end OsLab.Sched
