import OsLab.Sched.Boost
import OsLab.Sched.MlfqTermination
import OsLab.Sched.Rounds

/-! Which boosts reach every waiting process. `handle_priority_boost` returns at once when the
running process has no remaining time, and that is charged when a segment starts: the waiting
processes keep their levels throughout a last segment. Every other boost lifts them all. -/

namespace OsLab.Sched

variable {n : Nat} {config : MLFQConfig} {hpos : 0 < config.numLevels} {w : Workload n}

theorem mlfqPutBack_members_le (ps : Table n) (mq : MLFQProcessQueue n config) (p : Fin n) :
    ((mlfqPutBack ps mq p).2.members : Multiset (Fin n)) ≤ p ::ₘ mq.members := by
  by_cases hd : Demotes config (ps p)
  · rw [Multiset.coe_eq_coe.mpr (mlfqPutBack_of_demotes mq hd).2]
    rw [← Multiset.cons_coe]
    apply Multiset.cons_le_cons p
    rcases mq.levelQueues.members_remove (ps p).priority.toNat p with h | h
    · rw [h]
      exact le_rfl
    · show _ ≤ (mq.levelQueues.members : Multiset (Fin n))
      rw [Multiset.coe_eq_coe.mpr h]
      exact Multiset.le_cons_self _ p
  · rw [mlfqPutBack_of_not_demotes mq hd, Multiset.coe_eq_coe.mpr (mlfqEnqueue_members ps mq p)]
    rfl

theorem mlfqPriorityBoost_process (ps : Table n) (mq : MLFQProcessQueue n config) {p : Fin n}
    (hp : p ∈ mq.members) : ((mlfqPriorityBoost ps mq).1 p).priority = 0 ∧
      ((mlfqPriorityBoost ps mq).1 p).timeInQueue = 0 := by
  have hreset : (mlfqPriorityBoost ps mq).1 p = resetPriority (ps p) :=
    (foldl_resetPriority ps mq.members p).trans (if_pos hp)
  rw [hreset]
  exact ⟨rfl, rfl⟩

namespace SchedulerState

variable {s s' : SchedulerState (.mlfq config hpos) n} {p : Fin n}

def AllAtTop (s : SchedulerState (.mlfq config hpos) n) : Prop :=
  ∀ i, ∀ p ∈ MLFQProcessQueue.level s.waiting i,
    i = 0 ∧ (s.processes p).priority = 0 ∧ (s.processes p).timeInQueue = 0

def inside (s : SchedulerState (.mlfq config hpos) n) : Multiset (Fin n) :=
  (s.running.toList : Multiset (Fin n)) + Policy.members _ s.waiting

theorem inside_of_idle (hrun : s.running = none) : s.inside = Policy.members _ s.waiting := by
  rw [inside, hrun]
  exact zero_add _

theorem inside_of_running (hrun : s.running = some p) :
    s.inside = p ::ₘ Policy.members _ s.waiting := by
  rw [inside, hrun]
  exact Multiset.singleton_add p _

theorem inside_of_next (h : (Policy.members _ s.waiting = [] ∧ s'.running = none ∧
      s'.waiting = s.waiting) ∨ ∃ p, Policy.dequeue _ s.waiting = some (p, s'.waiting) ∧
        s'.running = some p) : s'.inside = Policy.members _ s.waiting := by
  rcases h with ⟨_, hrun, hwait⟩ | ⟨p, hd, hrun⟩
  · rw [inside_of_idle hrun, hwait]
  · rw [inside_of_running hrun, Policy.dequeue_members hd, Multiset.cons_coe]

theorem dispatchNext_inside (s : SchedulerState (.mlfq config hpos) n) (arrange : Bool) :
    (s.dispatchNext arrange).inside = Policy.members _ s.waiting := by
  apply inside_of_next
  rcases s.dispatchNext_cases arrange with ⟨hnil, heq⟩ | ⟨p, waiting, hd, _, heq⟩
  · exact .inl ⟨hnil, by rw [heq], by rw [heq]⟩
  · exact .inr ⟨p, by rw [heq, hd, dispatch_waiting], by rw [heq, dispatch_running]⟩

theorem dispatchStamped_place (s : SchedulerState (.mlfq config hpos) n) (p : Fin n) :
    (handleQuantumExpire.dispatchStamped s p).running = some p ∧
      (handleQuantumExpire.dispatchStamped s p).waiting = s.waiting := by
  unfold handleQuantumExpire.dispatchStamped queueSegmentEnd addEvent ensureFinish
  dsimp only
  split_ifs <;> exact ⟨rfl, rfl⟩

theorem expireNext_inside (s : SchedulerState (.mlfq config hpos) n) :
    (handleQuantumExpire.next s).inside = Policy.members _ s.waiting := by
  apply inside_of_next
  rcases s.expireNext_cases with ⟨hnil, heq⟩ | ⟨p, waiting, hd, heq⟩
  · exact .inl ⟨hnil, by rw [heq], by rw [heq]⟩
  · obtain ⟨hrun, hwait⟩ := dispatchStamped_place { s with waiting := waiting } p
    exact .inr ⟨p, by rw [heq, hwait, hd], by rw [heq, hrun]⟩

theorem addWaiting_inside (s : SchedulerState (.mlfq config hpos) n) (p : Fin n) :
    (s.addWaiting p).inside = p ::ₘ s.inside := by
  unfold inside
  rw [addWaiting_members, Multiset.add_cons]
  rfl

theorem requeued_members_le (s : SchedulerState (.mlfq config hpos) n) :
    (Policy.members _ s.requeued.waiting : Multiset (Fin n)) ≤ s.inside := by
  cases hrun : s.running with
  | none => rw [requeued_of_idle hrun, inside_of_idle hrun]
  | some p =>
    rw [requeued_of_running hrun, inside_of_running hrun, putBack_mlfq]
    exact mlfqPutBack_members_le s.processes s.waiting p

def boostRunning (s : SchedulerState (.mlfq config hpos) n) (r : Fin n) :
    SchedulerState (.mlfq config hpos) n :=
  { handlePriorityBoost.boostWaiting s with
    running := none
    processes := (handlePriorityBoost.boostWaiting s).processes.modify r resetPriority }.addWaiting r

theorem handlePriorityBoost_cases (s : SchedulerState (.mlfq config hpos) n) :
    (s.running = none ∧
        s.handlePriorityBoost = (handlePriorityBoost.boostWaiting s).dispatchNext false) ∨
      (∃ r, s.running = some r ∧ (s.processes r).remainingTime = 0 ∧ s.handlePriorityBoost = s) ∨
      ∃ r, s.running = some r ∧ (s.processes r).remainingTime ≠ 0 ∧
        (s.handlePriorityBoost = handlePriorityBoost.boostWaiting s ∨
          s.handlePriorityBoost = (s.boostRunning r).dispatchNext false) := by
  unfold handlePriorityBoost
  simp only [Policy.isMlfq, not_true_eq_false, if_false]
  cases hrun : s.running with
  | none => exact .inl ⟨rfl, rfl⟩
  | some r =>
    right
    by_cases hzero : (s.processes r).remainingTime = 0
    · exact .inl ⟨r, rfl, hzero, by simp only [if_pos hzero]⟩
    · refine .inr ⟨r, rfl, hzero, ?_⟩
      simp only [if_neg hzero]
      split_ifs with hleft
      · exact .inr rfl
      · left
        show { handlePriorityBoost.boostWaiting s with running := some r } = _
        rw [← hrun]
        rfl

theorem boostWaiting_members (s : SchedulerState (.mlfq config hpos) n) :
    Policy.members _ (handlePriorityBoost.boostWaiting s).waiting = Policy.members _ s.waiting :=
  mlfqPriorityBoost_members s.processes s.waiting

theorem boostWaiting_inside (s : SchedulerState (.mlfq config hpos) n) :
    (handlePriorityBoost.boostWaiting s).inside = s.inside := by
  unfold inside
  rw [boostWaiting_members]
  rfl

theorem boostRunning_members (s : SchedulerState (.mlfq config hpos) n) (r : Fin n) :
    (Policy.members _ (s.boostRunning r).waiting : Multiset (Fin n)) =
      r ::ₘ Policy.members _ s.waiting := by
  rw [boostRunning, addWaiting_members]
  show r ::ₘ (Policy.members _ (handlePriorityBoost.boostWaiting s).waiting : Multiset (Fin n)) = _
  rw [boostWaiting_members]

theorem handleEvent_inside (s : SchedulerState (.mlfq config hpos) n) (e : Event n) :
    (s.handleEvent e).inside ≤ (arrivals [e] : Multiset (Fin n)) + s.inside := by
  cases htype : e.type with
  | arrival p =>
    have hin : (arrivals [e] : Multiset (Fin n)) + s.inside = p ::ₘ s.inside := by
      rw [arrivals_cons_arrival htype]
      exact Multiset.singleton_add p _
    rw [hin, handleEvent_arrival htype]
    cases hrun : s.running with
    | none =>
      have heq : s.handleArrival p = s.dispatch p false := by
        simp only [handleArrival, hrun]
        rfl
      rw [heq, inside_of_running rfl, inside_of_idle hrun]
      exact le_rfl
    | some r =>
      have heq : s.handleArrival p = s.addWaiting p := by
        simp only [handleArrival, hrun]
        rfl
      rw [heq, addWaiting_inside]
  | completion p =>
    rw [handleEvent_completion htype, handleCompletion_eq_dispatchNext, dispatchNext_inside,
      released_members]
    exact (Multiset.le_add_left _ _).trans (Multiset.le_add_left _ _)
  | quantumExpire p =>
    rw [handleEvent_quantumExpire htype, handleQuantumExpire_eq_next, expireNext_inside]
    exact (requeued_members_le s).trans (Multiset.le_add_left _ _)
  | priorityBoost =>
    rw [handleEvent_priorityBoost htype]
    apply le_trans _ (Multiset.le_add_left _ _)
    rcases s.handlePriorityBoost_cases with ⟨hrun, heq⟩ | ⟨r, _, _, heq⟩ | ⟨r, hrun, _, heq | heq⟩
    · rw [heq, dispatchNext_inside, boostWaiting_members]
      exact Multiset.le_add_left _ _
    · rw [heq]
    · rw [heq, boostWaiting_inside]
    · rw [heq, dispatchNext_inside, boostRunning_members, inside_of_running hrun]

theorem handleEvent_arrivals (s : SchedulerState (.mlfq config hpos) n) (e : Event n) :
    arrivals (s.handleEvent e).eventQueue.items = arrivals s.eventQueue.items := by
  obtain ⟨q, rfl | ⟨hstcf, _⟩, hqueues⟩ := handleEvent_queues s e
  · rcases hqueues with hqueue | ⟨ps, end_, arrange, hend, hqueue⟩
    · rw [hqueue]
    · rw [hqueue, enqueueEvent_arrivals_eq ps s.eventQueue arrange hend]
  · exact absurd hstcf Bool.false_ne_true

theorem reaches_inside_nodup (hw : w.Nonneg)
    (h : Loop.Reaches loopBody (startState (.mlfq config hpos) w) s) :
    ((arrivals s.eventQueue.items : Multiset (Fin n)) + s.inside).Nodup := by
  refine h.invariant (fun s => ((arrivals s.eventQueue.items : Multiset (Fin n)) +
    s.inside).Nodup) (fun a b hb ha => ?_) ?_
  · obtain ⟨e, q, hq, rfl⟩ := loopBody_eq_some hb
    -- the arrival that is handled leaves the event queue as its process comes in
    apply Multiset.nodup_of_le _ ha
    have hsplit : (arrivals a.eventQueue.items : Multiset (Fin n)) =
        arrivals q.items + arrivals [e] := by
      rw [hq, add_comm, Multiset.coe_add, arrivals, arrivals, arrivals, ← List.filterMap_append]
      rfl
    rw [hsplit, handleEvent_arrivals, add_assoc]
    exact add_le_add_right ((a.popped e q).handleEvent_inside e) _
  · have hstart := startState_starting hw (.mlfq config hpos)
    rw [inside_of_idle hstart.running, hstart.waiting]
    refine Multiset.coe_nodup.mpr ?_
    rw [List.append_nil, hstart.arrivals.nodup_iff]
    exact List.nodup_reverse.mpr (List.nodup_finRange n)

theorem boostWaiting_allAtTop (s : SchedulerState (.mlfq config hpos) n) :
    (handlePriorityBoost.boostWaiting s).AllAtTop := by
  intro i p hp
  have hlevel := mlfqPriorityBoost_level s.processes s.waiting i
  have hp : p ∈ (mlfqPriorityBoost s.processes s.waiting).2.level i := hp
  rw [hlevel] at hp
  split_ifs at hp with hi
  · exact ⟨hi, mlfqPriorityBoost_process s.processes s.waiting hp⟩
  · exact absurd hp List.not_mem_nil

theorem AllAtTop.addWaiting (h : s.AllAtTop) (hpriority : (s.processes p).priority = 0)
    (htime : (s.processes p).timeInQueue = 0) : (s.addWaiting p).AllAtTop := by
  have hprocesses : (s.addWaiting p).processes = s.processes :=
    congrArg Prod.fst (mlfqEnqueue_eq s.processes s.waiting hpos hpriority)
  intro i r hr
  have hr : r ∈ (mlfqEnqueue s.processes s.waiting p).2.level i := hr
  rw [mlfqEnqueue_level s.processes s.waiting hpos hpriority] at hr
  rw [hprocesses]
  split_ifs at hr with hi
  · rcases List.mem_append.mp hr with hr | hr
    · exact ⟨hi, (h 0 r hr).2⟩
    · rw [List.mem_singleton.mp hr]
      exact ⟨hi, hpriority, htime⟩
  · exact h i r hr

theorem AllAtTop.dispatchNext (h : s.AllAtTop) (hnodup : (Policy.members _ s.waiting).Nodup)
    (arrange : Bool) : (s.dispatchNext arrange).AllAtTop := by
  rcases s.dispatchNext_cases arrange with ⟨_, heq⟩ | ⟨p, waiting, hd, hmembers, heq⟩
  · rw [heq]
    exact h
  · rw [heq]
    intro i r hr
    have hr : r ∈ MLFQProcessQueue.level waiting i := hr
    have hne : r ≠ p := by
      rintro rfl
      rw [hmembers] at hnodup
      exact (List.nodup_cons.mp hnodup).1 (MLFQProcessQueue.mem_members.mpr ⟨i, hr⟩)
    rw [dispatch_process_of_ne _ hne]
    exact h i r ((mlfqDequeue_level_sublist hd i).subset hr)

theorem boostRunning_allAtTop (s : SchedulerState (.mlfq config hpos) n) (r : Fin n) :
    (s.boostRunning r).AllAtTop := by
  have htop : ({ handlePriorityBoost.boostWaiting s with
      running := none
      processes := (handlePriorityBoost.boostWaiting s).processes.modify r resetPriority } :
      SchedulerState (.mlfq config hpos) n).AllAtTop := by
    intro i p hp
    obtain ⟨hi, hpriority, htime⟩ := boostWaiting_allAtTop s i p hp
    refine ⟨hi, ?_⟩
    show ((handlePriorityBoost.boostWaiting s).processes.modify r resetPriority p).priority = 0 ∧
      ((handlePriorityBoost.boostWaiting s).processes.modify r resetPriority p).timeInQueue = 0
    rcases eq_or_ne p r with rfl | hne
    · rw [Table.modify_self]
      exact ⟨rfl, rfl⟩
    · rw [Table.modify_of_ne hne]
      exact ⟨hpriority, htime⟩
  have hself := Table.modify_self (handlePriorityBoost.boostWaiting s).processes r resetPriority
  exact htop.addWaiting ((congrArg Process.priority hself).trans rfl)
    ((congrArg Process.timeInQueue hself).trans rfl)

theorem handlePriorityBoost_allAtTop_iff (hnodup : s.inside.Nodup) :
    s.handlePriorityBoost.AllAtTop ↔
      ((∃ r, s.running = some r ∧ (s.processes r).remainingTime = 0) → s.AllAtTop) := by
  rcases s.handlePriorityBoost_cases with ⟨hrun, heq⟩ | ⟨r, hrun, hzero, heq⟩ |
    ⟨r, hrun, hleft, heq⟩
  · rw [heq]
    rw [inside_of_idle hrun] at hnodup
    apply iff_of_true
    · apply (boostWaiting_allAtTop s).dispatchNext
      rw [boostWaiting_members]
      exact hnodup
    · rintro ⟨r, hrun', _⟩
      rw [hrun] at hrun'
      exact absurd hrun'.symm (Option.some_ne_none r)
  · -- the early return of the handler: nothing is moved at all
    rw [heq]
    exact ⟨fun h _ => h, fun h => h ⟨r, hrun, hzero⟩⟩
  · apply iff_of_true
    · rcases heq with heq | heq <;> rw [heq]
      · exact boostWaiting_allAtTop s
      · apply (boostRunning_allAtTop s r).dispatchNext
        rw [inside_of_running hrun, ← boostRunning_members] at hnodup
        exact hnodup
    · rintro ⟨r', hrun', hzero⟩
      rw [hrun] at hrun'
      rw [← Option.some.inj hrun'] at hzero
      exact absurd hzero hleft

def BoostOpen (s : SchedulerState (.mlfq config hpos) n) : Prop :=
  s.HandlesNext .priorityBoost → (∃ r, s.running = some r ∧ (s.processes r).remainingTime = 0) → s.AllAtTop

end SchedulerState

open SchedulerState

/-- Every boost of a run reaches every waiting process exactly if none is handled during the last
segment of a process while others wait below the top. -/
theorem boosts_reach_all_iff (hw : w.Nonneg) :
    (∀ s s' : SchedulerState (.mlfq config hpos) n, Loop.Reaches loopBody (startState _ w) s →
        s.HandlesNext .priorityBoost → s.loopBody = some s' → s'.AllAtTop) ↔
      ∀ s : SchedulerState (.mlfq config hpos) n, Loop.Reaches loopBody (startState _ w) s →
        s.BoostOpen := by
  have hround : ∀ s : SchedulerState (.mlfq config hpos) n,
      Loop.Reaches loopBody (startState _ w) s → s.HandlesNext .priorityBoost →
      ∃ s', s.loopBody = some s' ∧ (s'.AllAtTop ↔
        ((∃ r, s.running = some r ∧ (s.processes r).remainingTime = 0) → s.AllAtTop)) := by
    intro s hs hnext
    obtain ⟨e, q, hq, he⟩ := hnext.exists_event
    have hnodup := Multiset.nodup_of_le (Multiset.le_add_left _ _) (reaches_inside_nodup hw hs)
    have hiff := handlePriorityBoost_allAtTop_iff (s := s.popped e q) hnodup
    rw [← handleEvent_priorityBoost he] at hiff
    exact ⟨_, loopBody_of_items hq, hiff⟩
  constructor
  · intro h s hs hnext hdone
    obtain ⟨s', hb, hiff⟩ := hround s hs hnext
    exact hiff.mp (h s s' hs hnext hb) hdone
  · intro h s s' hs hnext hb
    obtain ⟨t, hb', hiff⟩ := hround s hs hnext
    obtain rfl := Option.some.inj (hb'.symm.trans hb)
    exact hiff.mpr (h s hs hnext)

def liftConfig : MLFQConfig where
  levels i := if i = 0 then ⟨0, 10, 10⟩ else if i = 1 then ⟨1, 20, -1⟩ else ⟨0, 0, 0⟩
  numLevels := 2
  boostPeriod := 1500
  numLevels_le := two_le_maxMlfqLevels

abbrev liftPolicy : Policy := .mlfq liftConfig (by decide)

/-- The boost finds `A` demoted and `B` running. -/
def liftWorkload : Workload 2 where
  pid := ![['A'], ['B']]
  arrivalTime := ![1485, 1485]
  burstTime := ![11, 15]

theorem liftInput : BoostInput liftConfig liftWorkload :=
  boostInput_of_levels (by decide) (by decide) (by decide) (by decide)

theorem liftPolicy_valid : Policy.Valid liftPolicy := liftInput.quantum

theorem lift_waits :
    (Loop.advance loopBody 3 (startState liftPolicy liftWorkload)).HandlesNext .priorityBoost ∧
      (0 : Fin 2) ∈ MLFQProcessQueue.level
        (Loop.advance loopBody 3 (startState liftPolicy liftWorkload)).waiting 1 := by
  decide +kernel

theorem lift_open : ∀ i < 4,
    ∀ r ∈ (Loop.advance loopBody i (startState liftPolicy liftWorkload)).running,
      (Loop.advance loopBody i (startState liftPolicy liftWorkload)).HandlesNext .priorityBoost →
        ((Loop.advance loopBody i (startState liftPolicy liftWorkload)).processes r).remainingTime
          ≠ 0 := by
  decide +kernel

theorem lift_over :
    ∀ e ∈ (Loop.advance loopBody 4 (startState liftPolicy liftWorkload)).eventQueue.items,
      e.type ≠ .priorityBoost := by
  decide +kernel

theorem lift_boostOpen {s : SchedulerState liftPolicy 2}
    (h : Loop.Reaches loopBody (startState liftPolicy liftWorkload) s)
    (hnext : s.HandlesNext .priorityBoost) {r : Fin 2} (hrun : s.running = some r) :
    (s.processes r).remainingTime ≠ 0 := by
  obtain ⟨i, hi, heq⟩ | hlate := h.cases_advance 4
  · rw [heq] at hrun hnext ⊢
    exact lift_open i hi r hrun hnext
  · have hover := lift_over
    generalize Loop.advance loopBody 4 (startState liftPolicy liftWorkload) = t at hlate hover
    obtain ⟨e, q, hq, htype⟩ := hnext.exists_event
    exact absurd htype (Reaches.boosts_over hlate hover e (hq ▸ List.mem_cons_self))

theorem boosts_reach_all_iff_lift :
    (∃ s : SchedulerState liftPolicy 2, Loop.Reaches loopBody (startState _ liftWorkload) s ∧
        s.HandlesNext .priorityBoost ∧ (0 : Fin 2) ∈ MLFQProcessQueue.level s.waiting 1) ∧
      ∀ s s' : SchedulerState liftPolicy 2, Loop.Reaches loopBody (startState _ liftWorkload) s →
        s.HandlesNext .priorityBoost → s.loopBody = some s' → s'.AllAtTop := by
  refine ⟨⟨_, Loop.reaches_advance loopBody 3 _, lift_waits⟩, ?_⟩
  refine (boosts_reach_all_iff liftInput.nonneg).mpr fun s hs hnext => ?_
  rintro ⟨r, hrun, hzero⟩
  exact absurd hzero (lift_boostOpen hs hnext hrun)

def lastSegmentConfig : MLFQConfig where
  levels i := if i = 0 then ⟨0, 1, 1⟩ else if i = 1 then ⟨1, -1, -1⟩ else ⟨0, 0, 0⟩
  numLevels := 2
  boostPeriod := 500
  numLevels_le := two_le_maxMlfqLevels

abbrev lastSegmentPolicy : Policy := .mlfq lastSegmentConfig (by decide)

def lastSegmentWorkload : Workload 2 where
  pid := ![['A'], ['B']]
  arrivalTime := ![0, 0]
  burstTime := ![1000, 1000]

theorem lastSegmentInput : BoostInput lastSegmentConfig lastSegmentWorkload :=
  boostInput_of_levels (by decide) (by decide) (by decide) (by decide)

/-- The boost at 500 leaves the second process at level 1. -/
theorem boost_skips_waiting :
    BoostInput lastSegmentConfig lastSegmentWorkload ∧
      ∃ s s' : SchedulerState lastSegmentPolicy 2,
        Loop.Reaches loopBody (startState lastSegmentPolicy lastSegmentWorkload) s ∧
        s.HandlesNext .priorityBoost ∧ s.loopBody = some s' ∧ ¬ s'.AllAtTop := by
  have hround : (Loop.advance loopBody 4
        (startState lastSegmentPolicy lastSegmentWorkload)).HandlesNext .priorityBoost ∧
      ∃ s' ∈ loopBody (Loop.advance loopBody 4 (startState lastSegmentPolicy lastSegmentWorkload)),
        (1 : Fin 2) ∈ MLFQProcessQueue.level s'.waiting 1 := by
    decide +kernel
  obtain ⟨hnext, s', hb, hmem⟩ := hround
  refine ⟨lastSegmentInput, _, s', Loop.reaches_advance _ 4 _, hnext, hb, fun htop => ?_⟩
  exact absurd (htop 1 1 hmem).1 one_ne_zero

end OsLab.Sched
