import OsLab.Foundation.Fifo
import OsLab.Sched.MlfqTermination
import OsLab.Sched.Rounds

/-! The rules of MLFQ over whole runs without boosts: levels only go down, the first process of the
first level that is not empty is taken, and a level is left when its allotment is used up. -/

namespace OsLab.Sched

variable {n : Nat} {config : MLFQConfig} {hpos : 0 < config.numLevels} {w : Workload n}

namespace SchedulerState

/-- The CPU time handed to `p` while it was at a level. -/
def levelTime {pol : Policy} (s : SchedulerState pol n) (p : Fin n) (level : Int) : Int :=
  (((s.dispatchesOf p).filter fun d => d.record.priority = level).map Dispatch.runTime).sum

theorem dispatch_levelTime {pol : Policy} (s : SchedulerState pol n) (p : Fin n) (arrange : Bool)
    (x : Fin n) (level : Int) : (s.dispatch p arrange).levelTime x level =
      s.levelTime x level + if p = x ∧ (s.processes p).priority = level then s.runTime p else 0 := by
  have hown : (s.dispatch p arrange).dispatchesOf x = s.dispatchesOf x ++
      if p = x then [⟨p, s.currentTime, s.runTime p, s.processes p, s.eventQueue⟩] else [] :=
    dispatchesOf_startSegment s p x
  unfold levelTime
  rw [hown, List.filter_append, List.map_append, List.sum_append]
  congr 1
  by_cases hx : p = x
  · by_cases hlevel : (s.processes p).priority = level
    · simp [hx, ← hlevel]
    · rw [if_pos hx, if_neg fun h => hlevel h.2, List.filter_cons_of_neg (by simpa using hlevel)]
      rfl
  · rw [if_neg hx, if_neg fun h => hx h.1]
    rfl

variable {s s' : SchedulerState (.mlfq config hpos) n} {e : Event n} {q : EventQueue n}
variable {p x : Fin n}

/-- What the queue and the records say about the levels, as long as there are no boosts. -/
structure LevelsKept (s : SchedulerState (.mlfq config hpos) n) : Prop where
  range : ∀ p, 0 ≤ (s.processes p).priority ∧ (s.processes p).priority < config.numLevels
  queued : ∀ i, ∀ p ∈ MLFQProcessQueue.level s.waiting i, (s.processes p).priority = i
  used : ∀ p, (s.processes p).timeInQueue = s.levelTime p (s.processes p).priority
  unused : ∀ p level, (s.processes p).priority < level → s.levelTime p level = 0

theorem dispatch_priority (s : SchedulerState (.mlfq config hpos) n) (p : Fin n) (arrange : Bool)
    (x : Fin n) :
    ((s.dispatch p arrange).processes x).priority = (s.processes x).priority := by
  rcases eq_or_ne x p with rfl | hne
  · exact (startSegment_mlfq s x).2.1
  · rw [dispatch_process_of_ne s hne]

namespace LevelsKept

theorem dispatch (h : LevelsKept s) (p : Fin n) (arrange : Bool) :
    LevelsKept (s.dispatch p arrange) where
  range x := by
    rw [dispatch_priority]
    exact h.range x
  queued i x hx := by
    rw [dispatch_priority]
    exact h.queued i x hx
  used x := by
    rw [dispatch_priority, dispatch_levelTime]
    rcases eq_or_ne x p with rfl | hne
    · rw [if_pos ⟨rfl, rfl⟩, ← h.used x]
      exact (startSegment_mlfq s x).2.2.1
    · rw [dispatch_process_of_ne s hne, if_neg fun hp => hne hp.1.symm, add_zero]
      exact h.used x
  unused x level hlt := by
    rw [dispatch_priority] at hlt
    rw [dispatch_levelTime, h.unused x level hlt, if_neg, add_zero]
    rintro ⟨rfl, hlevel⟩
    exact hlt.ne hlevel

theorem addWaiting_eq (h : LevelsKept s) (p : Fin n) : ∃ i : Nat, (s.processes p).priority = i ∧
    (s.addWaiting p).processes = s.processes ∧ ∀ j, MLFQProcessQueue.level (s.addWaiting p).waiting j =
      if j = i then MLFQProcessQueue.level s.waiting i ++ [p] else MLFQProcessQueue.level s.waiting j := by
  obtain ⟨hlo, hhi⟩ := h.range p
  obtain ⟨i, hi⟩ := Int.eq_ofNat_of_zero_le hlo
  have hlt : i < config.numLevels := by omega
  exact ⟨i, hi, congrArg Prod.fst (mlfqEnqueue_eq s.processes s.waiting hlt hi),
    mlfqEnqueue_level s.processes s.waiting hlt hi⟩

theorem addWaiting (h : LevelsKept s) (p : Fin n) : LevelsKept (s.addWaiting p) := by
  obtain ⟨i, hi, hprocesses, hlevel⟩ := h.addWaiting_eq p
  refine ⟨?_, fun j x hx => ?_, ?_, ?_⟩
  · rw [hprocesses]
    exact h.range
  · rw [hlevel] at hx
    rw [hprocesses]
    split_ifs at hx with hj
    · rcases List.mem_append.mp hx with hx | hx
      · exact hj ▸ h.queued i x hx
      · rw [List.mem_singleton.mp hx, hi, hj]
    · exact h.queued j x hx
  · rw [hprocesses]
    exact h.used
  · rw [hprocesses]
    exact h.unused

theorem putBack_process (h : LevelsKept s) (p x : Fin n) : (s.putBack p).processes x =
    if x = p ∧ Demotes config (s.processes p) then
      { s.processes p with priority := (s.processes p).priority + 1, timeInQueue := 0 }
    else s.processes x := by
  have hprocesses : (s.putBack p).processes = (mlfqPutBack s.processes s.waiting p).1 := rfl
  rw [hprocesses]
  by_cases hd : Demotes config (s.processes p)
  · rw [(mlfqPutBack_of_demotes s.waiting hd).1]
    rcases eq_or_ne x p with rfl | hne
    · rw [Table.modify_self, if_pos ⟨rfl, hd⟩]
    · rw [Table.modify_of_ne hne, if_neg fun hx => hne hx.1]
  · have hsame : (mlfqEnqueue s.processes s.waiting p).1 = s.processes :=
      (h.addWaiting_eq p).choose_spec.2.1
    rw [mlfqPutBack_of_not_demotes s.waiting hd, hsame, if_neg fun hx => hd hx.2]

theorem putBack (h : LevelsKept s) (hp : p ∉ Policy.members _ s.waiting) :
    LevelsKept (s.putBack p) := by
  obtain ⟨i, hi, hlevel⟩ := mlfqPutBack_level s.processes (h.range p) hp
  have htime : (s.putBack p).levelTime = s.levelTime := rfl
  refine ⟨fun x => ?_, fun j x hx => ?_, fun x => ?_, fun x level hlt => ?_⟩
  · rw [h.putBack_process]
    split_ifs with hd
    · have hlo := (h.range p).1
      exact ⟨by dsimp only; omega, hd.2.2.2⟩
    · exact h.range x
  · have hx : x ∈ (mlfqPutBack s.processes s.waiting p).2.level j := hx
    rw [hlevel] at hx
    have hold : ∀ k, x ∈ MLFQProcessQueue.level s.waiting k →
        ((s.putBack p).processes x).priority = k := by
      intro k hk
      rw [h.putBack_process, if_neg]
      · exact h.queued k x hk
      · rintro ⟨rfl, _⟩
        exact hp (MLFQProcessQueue.mem_members.mpr ⟨k, hk⟩)
    split_ifs at hx with hj
    · rcases List.mem_append.mp hx with hx | hx
      · exact hj ▸ hold i hx
      · rw [List.mem_singleton.mp hx, hj]
        exact hi
    · exact hold j hx
  · rw [htime, h.putBack_process]
    split_ifs with hd
    · rw [hd.1]
      exact (h.unused p _ (lt_add_one _)).symm
    · exact h.used x
  · rw [h.putBack_process] at hlt
    rw [htime]
    split_ifs at hlt with hd
    · rw [hd.1]
      exact h.unused p level ((lt_add_one _).trans hlt)
    · exact h.unused x level hlt

theorem dispatchNext (h : LevelsKept s) (arrange : Bool) : LevelsKept (s.dispatchNext arrange) := by
  rcases s.dispatchNext_cases arrange with ⟨_, heq⟩ | ⟨p, waiting, hd, _, heq⟩
  · rw [heq]
    exact ⟨h.range, h.queued, h.used, h.unused⟩
  · have hrest : LevelsKept { s with waiting := waiting } :=
      ⟨h.range, fun i x hx => h.queued i x ((mlfqDequeue_level_sublist hd i).subset hx), h.used, h.unused⟩
    rw [heq]
    exact hrest.dispatch p arrange

theorem popped (h : LevelsKept s) (e : Event n) (q : EventQueue n) : LevelsKept (s.popped e q) :=
  ⟨h.range, h.queued, h.used, h.unused⟩

end LevelsKept

/-- The state in which the round that handles the end of a segment looks for the next process. -/
structure Looks (s : SchedulerState (.mlfq config hpos) n) (e : Event n)
    (a : SchedulerState (.mlfq config hpos) n) : Prop where
  kept : LevelsKept a
  dispatches : a.dispatches = s.dispatches
  joins : ∀ i, Joins (MLFQProcessQueue.level s.waiting i) (MLFQProcessQueue.level a.waiting i)
  records : ∀ x, a.processes x =
    if e.type = .quantumExpire x ∧ Demotes config (s.processes x) then
      { s.processes x with priority := (s.processes x).priority + 1, timeInQueue := 0 }
    else s.processes x

theorem notMem_level_of_notMem (hp : p ∉ Policy.members _ s.waiting) (i : Nat) :
    p ∉ MLFQProcessQueue.level s.waiting i := fun hmem =>
  hp (MLFQProcessQueue.mem_members.mpr ⟨i, hmem⟩)

theorem Coherent.looks (hc : Coherent w s) (h : LevelsKept s) (hround : Round s e q s')
    (he : ∀ p, e.type ≠ .arrival p) : ∃ a, Looks s e a ∧ s' = a.dispatchNext false := by
  cases hround with
  | start x htype hrun => exact absurd htype (he x)
  | wait x r htype hrun hle => exact absurd htype (he x)
  | preempt x r htype hrun hstcf hlt => exact absurd htype (he x)
  | complete x htype hrun hrem =>
    have hkept := h.popped e q
    refine ⟨{ s.popped e q with running := none }, ?_, rfl⟩
    refine { kept := ⟨hkept.range, hkept.queued, hkept.used, hkept.unused⟩, dispatches := rfl
             joins := fun i => .of_sublist (List.Sublist.refl _), records := fun y => ?_ }
    rw [if_neg]
    · rfl
    · rintro ⟨hy, _⟩
      rw [htype] at hy
      exact absurd hy (by simp)
  | expire x htype hrun hrem =>
    -- the process is put back, at the level that `mlfq_check_demotion` has left it on
    have hwait : x ∉ Policy.members _ s.waiting := hc.cpu.notMem_ready_of_running hrun
    have hkept := h.popped e q
    refine ⟨(s.popped e q).putBack x, ?_, rfl⟩
    refine { kept := hkept.putBack hwait, dispatches := rfl, joins := fun i => ?_, records := fun y => ?_ }
    · obtain ⟨k, _, hlevel⟩ := mlfqPutBack_level s.processes (h.range x) hwait
      have hqueue : MLFQProcessQueue.level ((s.popped e q).putBack x).waiting i =
          if i = k then MLFQProcessQueue.level s.waiting k ++ [x]
          else MLFQProcessQueue.level s.waiting i := hlevel i
      rw [hqueue]
      split_ifs with hi
      · rw [hi]
        exact .concat (notMem_level_of_notMem hwait k)
      · exact .of_sublist (List.Sublist.refl _)
    · rw [hkept.putBack_process, htype]
      rcases eq_or_ne y x with rfl | hne
      · simp only [true_and]
        rfl
      · rw [if_neg fun hy => hne hy.1, if_neg fun hy => hne (EventType.quantumExpire.inj hy.1).symm]
        rfl

theorem dispatchNext_priority (s : SchedulerState (.mlfq config hpos) n) (arrange : Bool)
    (x : Fin n) :
    ((s.dispatchNext arrange).processes x).priority = (s.processes x).priority := by
  rcases s.dispatchNext_cases arrange with ⟨_, heq⟩ | ⟨p, waiting, _, _, heq⟩
  · rw [heq]
  · rw [heq]
    exact dispatch_priority { s with waiting := waiting } p arrange x

theorem dispatchNext_level_sublist (s : SchedulerState (.mlfq config hpos) n) (arrange : Bool)
    (i : Nat) : (MLFQProcessQueue.level (s.dispatchNext arrange).waiting i).Sublist
      (MLFQProcessQueue.level s.waiting i) := by
  rcases s.dispatchNext_cases arrange with ⟨_, heq⟩ | ⟨p, waiting, hd, _, heq⟩
  · rw [heq]
  · rw [heq]
    exact mlfqDequeue_level_sublist hd i

theorem LevelsKept.round (h : LevelsKept s) (hc : Coherent w s) (hround : Round s e q s') :
    LevelsKept s' := by
  by_cases harrival : ∃ p, e.type = .arrival p
  · cases hround with
    | start x htype hrun => exact (h.popped e q).dispatch x _
    | wait x r htype hrun hle => exact (h.popped e q).addWaiting x
    | preempt x r htype hrun hstcf hlt => exact absurd hstcf Bool.false_ne_true
    | complete x htype hrun hrem => exact absurd harrival (by simp [htype])
    | expire x htype hrun hrem => exact absurd harrival (by simp [htype])
  · obtain ⟨a, hlooks, rfl⟩ := hc.looks h hround (not_exists.mp harrival)
    exact hlooks.kept.dispatchNext false

theorem Coherent.level_joins (hc : Coherent w s) (h : LevelsKept s)
    (hq : s.eventQueue.items = e :: q.items) (hround : Round s e q s') (i : Nat) :
    Joins (MLFQProcessQueue.level s.waiting i) (MLFQProcessQueue.level s'.waiting i) := by
  by_cases harrival : ∃ p, e.type = .arrival p
  · cases hround with
    | start x htype hrun => exact .of_sublist (List.Sublist.refl _)
    | wait x r htype hrun hle =>
      have hpending : x ∈ arrivals s.eventQueue.items :=
        mem_arrivals.mpr ⟨e, hq ▸ List.mem_cons_self, htype⟩
      have hwait : x ∉ Policy.members _ s.waiting := hc.cpu.notMem_ready_of_pending hpending
      obtain ⟨k, _, _, hlevel⟩ := (h.popped e q).addWaiting_eq x
      rw [hlevel]
      split_ifs with hi
      · rw [hi]
        exact .concat (notMem_level_of_notMem hwait k)
      · exact .of_sublist (List.Sublist.refl _)
    | preempt x r htype hrun hstcf hlt => exact absurd hstcf Bool.false_ne_true
    | complete x htype hrun hrem => exact absurd harrival (by simp [htype])
    | expire x htype hrun hrem => exact absurd harrival (by simp [htype])
  · obtain ⟨a, hlooks, rfl⟩ := hc.looks h hround (not_exists.mp harrival)
    exact (hlooks.joins i).sublist (a.dispatchNext_level_sublist false i)

theorem Coherent.priority_round (hc : Coherent w s) (h : LevelsKept s) (hround : Round s e q s')
    (x : Fin n) : (s'.processes x).priority =
      if e.type = .quantumExpire x ∧ Demotes config (s.processes x) then
        (s.processes x).priority + 1
      else (s.processes x).priority := by
  by_cases harrival : ∃ p, e.type = .arrival p
  · have hno : ¬ (e.type = .quantumExpire x ∧ Demotes config (s.processes x)) := by
      rintro ⟨htype, _⟩
      exact absurd harrival (by simp [htype])
    rw [if_neg hno]
    cases hround with
    | start p htype hrun => exact dispatch_priority (s.popped e q) p _ x
    | wait p r htype hrun hle =>
      obtain ⟨_, _, hprocesses, _⟩ := (h.popped e q).addWaiting_eq p
      rw [hprocesses]
      rfl
    | preempt p r htype hrun hstcf hlt => exact absurd hstcf Bool.false_ne_true
    | complete p htype hrun hrem => exact absurd harrival (by simp [htype])
    | expire p htype hrun hrem => exact absurd harrival (by simp [htype])
  · obtain ⟨a, hlooks, rfl⟩ := hc.looks h hround (not_exists.mp harrival)
    rw [dispatchNext_priority, hlooks.records]
    split_ifs <;> rfl

/-- A demoted process has nothing used of its new allotment, neither while it waits nor when it is
dispatched again at once. -/
theorem Coherent.demoted_unused (hc : Coherent w s) (h : LevelsKept s) (hround : Round s e q s')
    (he : e.type = .quantumExpire x) (hd : Demotes config (s.processes x)) :
    (s'.running ≠ some x → (s'.processes x).timeInQueue = 0) ∧
      ∀ d, s'.dispatches = s.dispatches ++ [d] → d.process = x → d.record.timeInQueue = 0 := by
  obtain ⟨a, hlooks, rfl⟩ := hc.looks h hround (by simp [he])
  have hrecord := hlooks.records x
  rw [if_pos ⟨he, hd⟩] at hrecord
  have hzero : (a.processes x).timeInQueue = 0 := congrArg Process.timeInQueue hrecord
  rw [← hlooks.dispatches]
  rcases a.dispatchNext_cases false with ⟨_, heq⟩ | ⟨p, waiting, _, _, heq⟩
  · rw [heq]
    refine ⟨fun _ => hzero, fun d hdispatch => ?_⟩
    exact absurd (congrArg List.length hdispatch) (by simp)
  · rw [heq]
    constructor
    · intro hrun
      have hne : x ≠ p := by
        rintro rfl
        exact hrun rfl
      rw [dispatch_process_of_ne _ hne]
      exact hzero
    · intro d hdispatch hdx
      have hlast := List.append_cancel_left ((dispatch_dispatches _ p false).symm.trans hdispatch)
      rw [← (List.cons.inj hlast).1] at hdx ⊢
      obtain rfl : p = x := hdx
      exact hzero

theorem startState_level (hw : w.Nonneg) (i : ℕ) :
    MLFQProcessQueue.level (startState (.mlfq config hpos) w).waiting i = [] := by
  apply List.eq_nil_iff_forall_not_mem.mpr
  intro p hp
  have hwait : p ∈ Policy.members _ (startState (.mlfq config hpos) w).waiting :=
    MLFQProcessQueue.mem_members.mpr ⟨i, hp⟩
  rw [(startState_starting hw _).waiting] at hwait
  exact List.not_mem_nil hwait

theorem startState_levelsKept (hw : w.Nonneg) : LevelsKept (startState (.mlfq config hpos) w) := by
  have h := startState_starting hw (.mlfq config hpos)
  have htime : ∀ p level, (startState (.mlfq config hpos) w).levelTime p level = 0 := by
    intro p level
    rw [levelTime, dispatchesOf, h.dispatches]
    rfl
  refine ⟨fun p => ?_, fun i p hp => ?_, fun p => ?_, fun p level _ => htime p level⟩
  · rw [h.processes]
    exact ⟨le_rfl, Int.natCast_pos.mpr hpos⟩
  · rw [startState_level hw i] at hp
    exact absurd hp List.not_mem_nil
  · rw [htime, h.processes]
    rfl

/-- The state after `k` rounds. -/
def afterRounds (pol : Policy) (w : Workload n) (k : ℕ) : SchedulerState pol n :=
  Loop.advance loopBody k (startState pol w)

section Run

variable (hw : w.Nonneg) (hvalid : (Policy.mlfq config hpos).Valid) (hboost : config.boostPeriod ≤ 0)
include hw hvalid hboost

theorem afterRounds_levelsKept (k : ℕ) : LevelsKept (afterRounds (.mlfq config hpos) w k) :=
  Reaches.induction hw hvalid hboost LevelsKept (startState_levelsKept hw)
    (fun _ _ _ _ hc _ _ hround hkept => hkept.round hc hround) (Loop.reaches_advance _ k _)

theorem afterRounds_succ (k : ℕ) :
    ((afterRounds (.mlfq config hpos) w k).loopBody = none ∧
      afterRounds (.mlfq config hpos) w (k + 1) = afterRounds (.mlfq config hpos) w k) ∨
    ∃ e q, Coherent w (afterRounds (.mlfq config hpos) w k) ∧
      (afterRounds (.mlfq config hpos) w k).eventQueue.items = e :: q.items ∧
      Round (afterRounds (.mlfq config hpos) w k) e q (afterRounds (.mlfq config hpos) w (k + 1)) := by
  have hsucc := Loop.advance_succ loopBody k (startState (.mlfq config hpos) w)
  cases hb : (afterRounds (.mlfq config hpos) w k).loopBody with
  | none =>
    left
    refine ⟨rfl, hsucc.trans ?_⟩
    show Option.getD (afterRounds (.mlfq config hpos) w k).loopBody _ = _
    rw [hb]
    rfl
  | some t =>
    right
    obtain ⟨hc, _, e, q, hq, hround⟩ :=
      Reaches.round hw hvalid hboost (Loop.reaches_advance loopBody k _) hb
    have ht : afterRounds (.mlfq config hpos) w (k + 1) = t := by
      refine hsucc.trans ?_
      show Option.getD (afterRounds (.mlfq config hpos) w k).loopBody _ = _
      rw [hb]
      rfl
    exact ⟨e, q, hc, hq, ht ▸ hround⟩

theorem afterRounds_priority_le {j k : ℕ} (hjk : j ≤ k) (p : Fin n) :
    ((afterRounds (.mlfq config hpos) w j).processes p).priority ≤
      ((afterRounds (.mlfq config hpos) w k).processes p).priority := by
  induction hjk with
  | refl => exact le_rfl
  | @step k _ ih =>
    refine ih.trans ?_
    rcases afterRounds_succ hw hvalid hboost k with ⟨_, heq⟩ | ⟨e, q, hc, hq, hround⟩
    · rw [heq]
    · rw [hc.priority_round (afterRounds_levelsKept hw hvalid hboost k) hround]
      split_ifs <;> omega

theorem afterRounds_joins (i k : ℕ) :
    Joins (MLFQProcessQueue.level (afterRounds (.mlfq config hpos) w k).waiting i)
      (MLFQProcessQueue.level (afterRounds (.mlfq config hpos) w (k + 1)).waiting i) := by
  rcases afterRounds_succ hw hvalid hboost k with ⟨_, heq⟩ | ⟨e, q, hc, hq, hround⟩
  · rw [heq]
    exact .of_sublist (List.Sublist.refl _)
  · exact hc.level_joins (afterRounds_levelsKept hw hvalid hboost k) hq hround i

end Run

/-- What round `k` takes from the waiting queue is on the first level that is not empty, and entered
that level before all others on it. -/
def PicksInOrder (run : ℕ → SchedulerState (.mlfq config hpos) n) (k : ℕ) : Prop :=
  ∀ p, (∀ a, ¬ (run k).HandlesNext (.arrival a)) →
    (run (k + 1)).dispatched = (run k).dispatched ++ [p] →
    ∀ x ∈ Policy.members _ (run (k + 1)).waiting,
      ((run (k + 1)).processes p).priority ≤ ((run (k + 1)).processes x).priority ∧
        (((run (k + 1)).processes p).priority = ((run (k + 1)).processes x).priority →
          EnteredBefore (fun m => MLFQProcessQueue.level (run m).waiting
            ((run (k + 1)).processes p).priority.toNat) k p x)

/-- What round `k` does to the level of `p`. -/
structure DemotedInTime (run : ℕ → SchedulerState (.mlfq config hpos) n) (k : ℕ) (p : Fin n) :
    Prop where
  leaves_iff : ((run (k + 1)).processes p).priority ≠ ((run k).processes p).priority ↔
    (run k).HandlesNext (.quantumExpire p) ∧
      ((run k).processes p).priority + 1 < config.numLevels ∧
      mlfqGetAllotment config ((run k).processes p).priority ≠ -1 ∧
      mlfqGetAllotment config ((run k).processes p).priority ≤
        (run k).levelTime p ((run k).processes p).priority
  next : ((run (k + 1)).processes p).priority ≠ ((run k).processes p).priority →
    ((run (k + 1)).processes p).priority = ((run k).processes p).priority + 1
  reset : ((run (k + 1)).processes p).priority ≠ ((run k).processes p).priority →
    ((run (k + 1)).running ≠ some p → ((run (k + 1)).processes p).timeInQueue = 0) ∧
      ∀ d, (run (k + 1)).dispatches = (run k).dispatches ++ [d] → d.process = p →
        d.record.timeInQueue = 0
  first : ((run (k + 1)).processes p).priority ≠ ((run k).processes p).priority →
    ∀ j < k, (run j).HandlesNext (.quantumExpire p) →
      ((run j).processes p).priority = ((run k).processes p).priority →
      (run j).levelTime p ((run k).processes p).priority <
        mlfqGetAllotment config ((run k).processes p).priority

theorem handlesNext_iff (hq : s.eventQueue.items = e :: q.items) {type : EventType n} :
    s.HandlesNext type ↔ e.type = type := by
  rw [HandlesNext, hq]
  exact Option.some_inj

section Run

variable (hw : w.Nonneg) (hvalid : (Policy.mlfq config hpos).Valid) (hboost : config.boostPeriod ≤ 0)
include hw hvalid hboost

theorem afterRounds_picksInOrder (k : ℕ) : PicksInOrder (afterRounds (.mlfq config hpos) w) k := by
  intro p harrival hdispatched x hx
  rcases afterRounds_succ hw hvalid hboost k with ⟨_, heq⟩ | ⟨e, q, hc, hq, hround⟩
  · rw [heq] at hdispatched
    exact absurd (congrArg List.length hdispatched) (by simp)
  have hkept := afterRounds_levelsKept hw hvalid hboost k
  have hkept' := afterRounds_levelsKept hw hvalid hboost (k + 1)
  obtain ⟨a, hlooks, ha⟩ := hc.looks hkept hround fun r hr =>
    harrival r ((handlesNext_iff hq).mpr hr)
  have hbefore : a.dispatched = (afterRounds (.mlfq config hpos) w k).dispatched :=
    congrArg (List.map Dispatch.process) hlooks.dispatches
  rcases a.dispatchNext_cases false with ⟨_, heq⟩ | ⟨b, waiting, hd, _, heq⟩
  · rw [ha, heq, ← hbefore] at hdispatched
    exact absurd (congrArg List.length hdispatched) (by simp [dispatched])
  -- the process taken is the head of the first level that is not empty
  obtain ⟨i, hi, hempty, hrest⟩ := mlfqDequeue_level hd
  have hwaiting : (afterRounds (.mlfq config hpos) w (k + 1)).waiting = waiting := by
    rw [ha, heq, dispatch_waiting]
  have hp : b = p := by
    rw [ha, heq, ← hbefore] at hdispatched
    have hlast := List.append_cancel_left
      ((dispatch_dispatched { a with waiting := waiting } b false).symm.trans hdispatched)
    exact (List.cons.inj hlast).1
  subst hp
  have hpriority : ((afterRounds (.mlfq config hpos) w (k + 1)).processes b).priority = i := by
    rw [ha, dispatchNext_priority]
    exact hlooks.kept.queued i b (hi ▸ List.mem_cons_self)
  obtain ⟨j, hj⟩ := MLFQProcessQueue.mem_members.mp hx
  rw [hpriority, hkept'.queued j x hj]
  rw [hwaiting] at hj
  constructor
  · by_contra hlt
    have hji : j < i := by omega
    rw [hrest j hji.ne, hempty j hji] at hj
    exact List.not_mem_nil hj
  · intro hij
    -- both stood on the same queue, `b` at its head
    obtain rfl : i = j := by omega
    have hpair : [b, x].Sublist (MLFQProcessQueue.level a.waiting i) := by
      rw [hi]
      exact (List.singleton_sublist.mpr hj).cons_cons b
    rw [Int.toNat_natCast]
    exact enteredBefore_of_joins (hlooks.joins i)
      (enteredBefore_of_sublist (startState_level hw i) (afterRounds_joins hw hvalid hboost i)) hpair

theorem afterRounds_priority_succ (k : ℕ) (p : Fin n) :
    ((afterRounds (.mlfq config hpos) w (k + 1)).processes p).priority =
      if (afterRounds (.mlfq config hpos) w k).HandlesNext (.quantumExpire p) ∧
          Demotes config ((afterRounds (.mlfq config hpos) w k).processes p) then
        ((afterRounds (.mlfq config hpos) w k).processes p).priority + 1
      else ((afterRounds (.mlfq config hpos) w k).processes p).priority := by
  rcases afterRounds_succ hw hvalid hboost k with ⟨hend, heq⟩ | ⟨e, q, hc, hq, hround⟩
  · rw [heq, if_neg]
    rintro ⟨hnext, _⟩
    obtain ⟨e, q, hq, _⟩ := hnext.exists_event
    rw [loopBody_eq_none.mp hend] at hq
    exact List.cons_ne_nil e _ hq.symm
  · rw [hc.priority_round (afterRounds_levelsKept hw hvalid hboost k) hround]
    simp only [handlesNext_iff hq]

theorem afterRounds_leaves_iff (k : ℕ) (p : Fin n) :
    ((afterRounds (.mlfq config hpos) w (k + 1)).processes p).priority ≠
        ((afterRounds (.mlfq config hpos) w k).processes p).priority ↔
      (afterRounds (.mlfq config hpos) w k).HandlesNext (.quantumExpire p) ∧
        Demotes config ((afterRounds (.mlfq config hpos) w k).processes p) := by
  rw [afterRounds_priority_succ hw hvalid hboost]
  split_ifs with hd
  · exact iff_of_true (lt_add_one _).ne' hd
  · exact iff_of_false (fun hne => hne rfl) hd

theorem afterRounds_demotedInTime (k : ℕ) (p : Fin n) :
    DemotedInTime (afterRounds (.mlfq config hpos) w) k p := by
  have hleaves := afterRounds_leaves_iff hw hvalid hboost
  have hused : ∀ k, ((afterRounds (.mlfq config hpos) w k).processes p).timeInQueue = _ := fun k =>
    (afterRounds_levelsKept hw hvalid hboost k).used p
  have hnext := afterRounds_priority_succ hw hvalid hboost
  refine ⟨?_, fun hne => ?_, fun hne => ?_, fun hne j hj hexpire hsame => ?_⟩
  · rw [hleaves, Demotes, hused k]
    tauto
  · rw [hnext, if_pos ((hleaves k p).mp hne)]
  · obtain ⟨hexpire, hd⟩ := (hleaves k p).mp hne
    rcases afterRounds_succ hw hvalid hboost k with ⟨_, heq⟩ | ⟨e, q, hc, hq, hround⟩
    · exact absurd (by rw [heq]) hne
    · exact hc.demoted_unused (afterRounds_levelsKept hw hvalid hboost k) hround
        ((handlesNext_iff hq).mp hexpire) hd
  · -- an earlier expiry with the allotment used up would have ended the stay at this level
    by_contra hle
    obtain ⟨_, hallot, _, hlast⟩ := (hleaves k p).mp hne
    have hd : Demotes config ((afterRounds (.mlfq config hpos) w j).processes p) := by
      rw [Demotes, hused j, hsame]
      exact ⟨hallot, not_lt.mp hle, hlast⟩
    have hup := hnext j p
    rw [if_pos ⟨hexpire, hd⟩, hsame] at hup
    have hmono := afterRounds_priority_le hw hvalid hboost hj p
    rw [hup] at hmono
    omega

end Run

end SchedulerState

open SchedulerState

/-- The rules of MLFQ without boosts: levels start at 0 and only go down, waiting processes are
queued at their level, dispatches follow the levels and then the order of entry, and a level is left
at the first expiry that finds its allotment used up. -/
theorem mlfq_rules (hw : w.Nonneg) (hvalid : (Policy.mlfq config hpos).Valid)
    (hboost : config.boostPeriod ≤ 0) :
    (∀ p, ((afterRounds (.mlfq config hpos) w 0).processes p).priority = 0) ∧
    (∀ j k, j ≤ k → ∀ p, ((afterRounds (.mlfq config hpos) w j).processes p).priority ≤
      ((afterRounds (.mlfq config hpos) w k).processes p).priority) ∧
    ∀ k, (∀ p, 0 ≤ ((afterRounds (.mlfq config hpos) w k).processes p).priority ∧
        ((afterRounds (.mlfq config hpos) w k).processes p).priority < config.numLevels) ∧
      (∀ i, ∀ p ∈ MLFQProcessQueue.level (afterRounds (.mlfq config hpos) w k).waiting i,
        ((afterRounds (.mlfq config hpos) w k).processes p).priority = i) ∧
      PicksInOrder (afterRounds (.mlfq config hpos) w) k ∧
      ∀ p, DemotedInTime (afterRounds (.mlfq config hpos) w) k p := by
  refine ⟨fun p => ?_, fun j k hjk p => afterRounds_priority_le hw hvalid hboost hjk p, fun k => ?_⟩
  · show ((startState (.mlfq config hpos) w).processes p).priority = 0
    rw [(startState_starting hw _).processes]
    rfl
  · have hkept : LevelsKept (afterRounds (.mlfq config hpos) w k) :=
      afterRounds_levelsKept hw hvalid hboost k
    exact ⟨hkept.range, hkept.queued, afterRounds_picksInOrder hw hvalid hboost k,
      afterRounds_demotedInTime hw hvalid hboost k⟩

def twoLevelConfig : MLFQConfig where
  levels i := if i = 0 then ⟨0, 2, 2⟩ else if i = 1 then ⟨1, 4, -1⟩ else ⟨0, 0, 0⟩
  numLevels := 2
  boostPeriod := -1
  numLevels_le := two_le_maxMlfqLevels

theorem twoLevelConfig_pos : 0 < twoLevelConfig.numLevels := by decide

theorem twoLevelConfig_valid : (Policy.mlfq twoLevelConfig twoLevelConfig_pos).Valid :=
  Policy.mlfq_valid (by decide)

theorem mlfq_rules_sample :
    ((afterRounds (.mlfq twoLevelConfig twoLevelConfig_pos) sampleWorkload 0).processes 0).priority = 0 ∧
    ∀ k, PicksInOrder (afterRounds (.mlfq twoLevelConfig twoLevelConfig_pos) sampleWorkload) k ∧
      ∀ p, DemotedInTime (afterRounds (.mlfq twoLevelConfig twoLevelConfig_pos) sampleWorkload) k p := by
  have hrules := mlfq_rules sampleWorkload_nonneg twoLevelConfig_valid (by decide)
  exact ⟨hrules.1 0, fun k => (hrules.2.2 k).2.2⟩

end OsLab.Sched
