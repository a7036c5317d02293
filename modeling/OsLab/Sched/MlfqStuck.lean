import OsLab.Sched.MlfqTermination

/-! The converse without boosts: a process dispatched at a level with quantum 0 that it will not
leave is dispatched for no time again and again, and the event loop never ends. -/

namespace OsLab.Sched

variable {n : Nat}

/-- The process has work left, gets no time at its level, and will not be demoted from it. -/
def StuckAt (config : MLFQConfig) (r : Process) : Prop :=
  0 < r.remainingTime ∧ mlfqGetQuantum config r.priority = 0 ∧ ¬ Demotes config r

theorem StuckAt.not_makesProgress {config : MLFQConfig} {r : Process} (h : StuckAt config r) :
    ¬ MakesProgress config r := by
  obtain ⟨hrem, hquantum, hstays⟩ := h
  rintro (hp | hp | ⟨_, hp | hp⟩)
  · omega
  · omega
  · omega
  · exact hstays hp

theorem StuckAt.congr {config : MLFQConfig} {r r' : Process} (h : StuckAt config r)
    (hrem : r'.remainingTime = r.remainingTime) (hpriority : r'.priority = r.priority)
    (htime : r'.timeInQueue = r.timeInQueue) : StuckAt config r' := by
  unfold StuckAt Demotes at *
  rwa [hrem, hpriority, htime]

theorem StuckAt.priority_ne {config : MLFQConfig} {r : Process} (h : StuckAt config r) :
    r.priority ≠ unknownTime := by
  intro hp
  have hquantum := h.2.1
  rw [hp] at hquantum
  simp [mlfqGetQuantum, MLFQConfig.level?, unknownTime] at hquantum

namespace SchedulerState

variable {config : MLFQConfig} {hpos : 0 < config.numLevels}
variable {s s' : SchedulerState (.mlfq config hpos) n} {p : Fin n}

/-- The one queued end of a segment is that of the running process, and a completion only when
that process has nothing left. -/
def Linked (s : SchedulerState (.mlfq config hpos) n) : Prop :=
  (segmentEnds s.eventQueue.items).map Event.type = s.running.toList.map fun p =>
    if (s.processes p).remainingTime = 0 then .completion p else .quantumExpire p

def Stuck (s : SchedulerState (.mlfq config hpos) n) : Prop :=
  ∃ p, (s.running = some p ∨ p ∈ Policy.members _ s.waiting) ∧ StuckAt config (s.processes p)

def StuckWaiting (s : SchedulerState (.mlfq config hpos) n) : Prop :=
  ∃ p ∈ Policy.members _ s.waiting, StuckAt config (s.processes p)

theorem dispatch_linked (hends : segmentEnds s.eventQueue.items = []) (arrange : Bool) :
    Linked (s.dispatch p arrange) := by
  have hend : (⟨s.currentTime + s.runTime p, if ((s.startSegment p).1.processes p).remainingTime = 0
      then .completion p else .quantumExpire p⟩ : Event n).endsSegment = true := by
    unfold Event.endsSegment
    dsimp only
    split_ifs <;> rfl
  have hqueue := enqueueEvent_segmentEnds (s.startSegment p).1.processes s.eventQueue _ arrange hend
    hends
  exact congrArg (List.map Event.type) hqueue

theorem dispatchNext_linked (hends : segmentEnds s.eventQueue.items = []) (arrange : Bool) :
    Linked (s.dispatchNext arrange) := by
  obtain ⟨_, heq⟩ | ⟨p, waiting, _, _, heq⟩ := s.dispatchNext_cases arrange
  · rw [heq]
    exact congrArg (List.map Event.type) hends
  · rw [heq]
    exact dispatch_linked (s := { s with waiting := waiting }) hends arrange

theorem dispatch_stuckAt (hrem : 0 ≤ (s.processes p).remainingTime) (hrun : 0 ≤ s.runTime p)
    (h : ¬ MakesProgress config (s.processes p)) (arrange : Bool) :
    StuckAt config (s.processes p) ∧
      StuckAt config ((s.dispatch p arrange).processes p) := by
  have hvalue := scheduleMlfq_runTime config s.currentTime (s.processes p)
  change s.runTime p = _ at hvalue
  obtain ⟨hrem', hpriority, htime, _⟩ := startSegment_mlfq s p
  have hquantum : mlfqGetQuantum config (s.processes p).priority = 0 := by
    by_contra hne
    refine h ?_
    unfold MakesProgress
    split_ifs at hvalue <;> omega
  have hzero : s.runTime p = 0 := by
    rw [if_neg (by omega), hquantum] at hvalue
    omega
  have hstuck : StuckAt config (s.processes p) := by
    refine ⟨?_, hquantum, fun hd => h (.inr (.inr ⟨hquantum, .inr hd⟩))⟩
    refine lt_of_le_of_ne hrem fun hdone => h (.inr (.inr ⟨hquantum, .inl hdone.symm⟩))
  refine ⟨hstuck, ?_⟩
  have hsame : StuckAt config ((s.startSegment p).1.processes p) :=
    hstuck.congr (by rw [hrem', hzero, sub_zero]) hpriority (by rw [htime, hzero, add_zero])
  exact hsame

theorem dispatch_stuck (h : Sound s) {arrange : Bool} (hok : Timely (s.dispatch p arrange))
    (hstuck : StuckWaiting s ∨ ¬ MakesProgress config (s.processes p)) :
    Stuck (s.dispatch p arrange) := by
  have hself : ¬ MakesProgress config (s.processes p) → Stuck (s.dispatch p arrange) := fun hbad =>
    ⟨p, .inl rfl, (dispatch_stuckAt (h.remaining p) (hok.runTime_nonneg (h.remaining p)) hbad
      arrange).2⟩
  rcases hstuck with ⟨x, hx, hat⟩ | hbad
  · rcases eq_or_ne x p with rfl | hne
    · exact hself hat.not_makesProgress
    · exact ⟨x, .inr hx, by rwa [dispatch_processes_of_ne hne]⟩
  · exact hself hbad

theorem dispatchNext_stuck (h : Sound s) {arrange : Bool} (hok : Timely (s.dispatchNext arrange))
    (hstuck : StuckWaiting s ∨ ∃ d ∈ (s.dispatchNext arrange).dispatches,
      d ∉ s.dispatches ∧ ¬ MakesProgress config d.record) : Stuck (s.dispatchNext arrange) := by
  obtain ⟨hnil, heq⟩ | ⟨p, waiting, _, hmembers, heq⟩ := s.dispatchNext_cases arrange
  · rw [heq] at hstuck
    rcases hstuck with ⟨x, hx, _⟩ | ⟨d, hmem, hnew, _⟩
    · simp [hnil] at hx
    · exact absurd hmem hnew
  · rw [heq] at hok hstuck ⊢
    have hs : Sound { s with waiting := waiting } := ⟨h.remaining, h.time, h.events, h.enqueued⟩
    refine dispatch_stuck hs hok ?_
    rcases hstuck with ⟨x, hx, hat⟩ | ⟨d, hmem, hnew, hbad⟩
    · rw [hmembers] at hx
      rcases List.mem_cons.mp hx with rfl | hx
      · exact .inr hat.not_makesProgress
      · exact .inl ⟨x, hx, hat⟩
    · have hlast := (List.mem_append.mp hmem).resolve_left hnew
      rw [List.mem_singleton.mp hlast] at hbad
      exact .inr hbad

theorem StuckAt.mlfqEnqueue {ps : Table n} {x : Fin n} (h : StuckAt config (ps x))
    (mq : MLFQProcessQueue n config) (p : Fin n) : StuckAt config ((mlfqEnqueue ps mq p).1 x) := by
  simp only [Sched.mlfqEnqueue]
  split_ifs with hnew
  · have hne : x ≠ p := fun hxp => h.priority_ne (hxp ▸ hnew)
    rwa [Table.modify_of_ne hne]
  · exact h

theorem putBack_stuckWaiting (hrun : s.running = some p) (h : Stuck s) :
    StuckWaiting (s.putBack p) := by
  obtain ⟨x, hx, hat⟩ := h
  rw [putBack_mlfq]
  by_cases hd : Demotes config (s.processes p)
  -- a stuck process is not demoted, so it is another one that waits
  · have hne : x ≠ p := fun hxp => hat.2.2 (hxp ▸ hd)
    have hmem : x ∈ Policy.members _ s.waiting :=
      hx.resolve_left fun hr => hne (Option.some.inj (hr.symm.trans hrun))
    obtain ⟨hps, hperm⟩ := mlfqPutBack_of_demotes s.waiting hd
    refine ⟨x, hperm.mem_iff.mpr (List.mem_cons_of_mem _ (Levels.mem_remove_of_ne hne hmem)), ?_⟩
    dsimp only
    rwa [hps, Table.modify_of_ne hne]
  · have hmem : x = p ∨ x ∈ Policy.members _ s.waiting :=
      hx.imp_left fun hr => Option.some.inj (hr.symm.trans hrun)
    refine ⟨x, ?_, ?_⟩
    · dsimp only
      rw [mlfqPutBack_of_not_demotes s.waiting hd]
      exact (mlfqEnqueue_members s.processes s.waiting p).mem_iff.mpr (List.mem_cons.mpr hmem)
    · dsimp only
      rw [mlfqPutBack_of_not_demotes s.waiting hd]
      exact StuckAt.mlfqEnqueue hat s.waiting p

section Round

variable {e : Event n} {q : EventQueue n}

theorem Linked.of_endsSegment (h : Linked s) (hq : s.eventQueue.items = e :: q.items)
    (he : e.endsSegment = true) : ∃ p, s.running = some p ∧ segmentEnds q.items = [] ∧
      e.type = if (s.processes p).remainingTime = 0 then .completion p else .quantumExpire p := by
  unfold Linked at h
  rw [hq, segmentEnds, List.filter_cons_of_pos he, List.map_cons] at h
  cases hrun : s.running with
  | none => simp [hrun] at h
  | some p =>
    rw [hrun] at h
    obtain ⟨htype, hrest⟩ := List.cons.inj h
    exact ⟨p, rfl, List.map_eq_nil_iff.mp hrest, htype⟩

theorem Linked.segmentEnds_popped (h : Linked s) (hq : s.eventQueue.items = e :: q.items)
    (he : e.endsSegment = false) : (segmentEnds q.items).map Event.type = s.running.toList.map fun p =>
      if (s.processes p).remainingTime = 0 then .completion p else .quantumExpire p := by
  unfold Linked at h
  rwa [hq, segmentEnds, List.filter_cons_of_neg (by simp [he])] at h

theorem Linked.round (h : Linked s) (hsound : Sound s) (hb : s.loopBody = some s')
    (hboost : ∀ e ∈ s.eventQueue.items, e.type ≠ .priorityBoost) : Linked s' := by
  obtain ⟨e, q, hq, rfl⟩ := loopBody_eq_some hb
  unfold handleEvent
  cases he : e.type with
  | arrival p =>
    have hends := h.segmentEnds_popped hq (by rw [Event.endsSegment, he])
    dsimp only
    cases hrun : s.running with
    | none =>
      rw [hrun] at hends
      rw [handleArrival_eq_of_idle hrun]
      exact dispatch_linked (s := s.popped e q) (List.map_eq_nil_iff.mp hends) _
    | some r =>
      rw [handleArrival_eq_of_wait hrun (by simp [Policy.isStcf])]
      have hps := mlfqEnqueue_sameTimes s.processes s.waiting p
      unfold Linked
      refine hends.trans (List.map_congr_left fun x _ => ?_)
      exact (congrArg (fun t : Int => if t = 0 then EventType.completion x else .quantumExpire x)
        (hps.remainingTime x)).symm
  | completion p =>
    obtain ⟨r, _, hends, _⟩ := h.of_endsSegment hq (by rw [Event.endsSegment, he])
    refine dispatchNext_linked (s := (s.popped e q).released) ?_ _
    exact (stampRunning_frame (s.popped e q)).2.1 ▸ hends
  | quantumExpire p =>
    obtain ⟨r, hrun, hends, _⟩ := h.of_endsSegment hq (by rw [Event.endsSegment, he])
    dsimp only
    rw [(hsound.popped hq).handleQuantumExpire_eq, requeued_of_running (s := s.popped e q) hrun]
    exact dispatchNext_linked (s := (s.popped e q).putBack r) hends _
  | priorityBoost => exact absurd he (hboost e (hq ▸ List.mem_cons_self))

theorem stuck_round (hsound : Sound s) (hidle : Idle s) (hlinked : Linked s)
    (hb : s.loopBody = some s') (hok : Timely s')
    (hboost : ∀ e ∈ s.eventQueue.items, e.type ≠ .priorityBoost)
    (hstuck : Stuck s ∨ ∃ d ∈ s'.dispatches, d ∉ s.dispatches ∧ ¬ MakesProgress config d.record) :
    Stuck s' := by
  obtain ⟨e, q, hq, rfl⟩ := loopBody_eq_some hb
  have hpopped := hsound.popped hq
  unfold handleEvent at hok hstuck ⊢
  cases he : e.type with
  | arrival p =>
    simp only [he] at hok hstuck ⊢
    cases hrun : s.running with
    | none =>
      rw [handleArrival_eq_of_idle hrun] at hok hstuck ⊢
      refine dispatch_stuck hpopped hok (.inr ?_)
      rcases hstuck with ⟨x, hx, _⟩ | ⟨d, hmem, hnew, hbad⟩
      · simp [hrun, hidle hrun] at hx
      · have hlast := (List.mem_append.mp hmem).resolve_left hnew
        rwa [List.mem_singleton.mp hlast] at hbad
    | some r =>
      rw [handleArrival_eq_of_wait hrun (by simp [Policy.isStcf])] at hstuck ⊢
      obtain ⟨x, hx, hat⟩ := hstuck.resolve_right (by
        rintro ⟨_, hmem, hnew, _⟩
        exact hnew hmem)
      refine ⟨x, hx.imp_right fun hx => ?_, ?_⟩
      · exact (mlfqEnqueue_members s.processes s.waiting p).mem_iff.mpr (List.mem_cons_of_mem _ hx)
      · exact StuckAt.mlfqEnqueue hat s.waiting p
  | completion p =>
    -- the completion is that of the running process, which has nothing left and so is not stuck
    obtain ⟨r, hrun, _, htype⟩ := hlinked.of_endsSegment hq (by rw [Event.endsSegment, he])
    have hdone : (s.processes r).remainingTime = 0 := by
      by_contra hne
      rw [if_neg hne, he] at htype
      simp at htype
    simp only [he] at hok hstuck ⊢
    refine dispatchNext_stuck hpopped.released hok ?_
    rcases hstuck with ⟨x, hx, hat⟩ | hnew
    · have hmem : x ∈ Policy.members _ s.waiting := by
        refine hx.resolve_left fun hr => ?_
        obtain rfl := Option.some.inj (hr.symm.trans hrun)
        exact hat.1.ne' hdone
      obtain ⟨hrem, hpriority, htime⟩ := stampRunning_processes (s.popped e q) x
      exact .inl ⟨x, released_members (s.popped e q) ▸ hmem, hat.congr hrem hpriority htime⟩
    · obtain ⟨d, hmem, hnew, hbad⟩ := hnew
      exact .inr ⟨d, hmem, released_dispatches (s.popped e q) ▸ hnew, hbad⟩
  | quantumExpire p =>
    obtain ⟨r, hrun, _⟩ := hlinked.of_endsSegment hq (by rw [Event.endsSegment, he])
    simp only [he] at hok hstuck ⊢
    have hback := hpopped.requeued
    rw [hpopped.handleQuantumExpire_eq, requeued_of_running (s := s.popped e q) hrun] at hok hstuck ⊢
    rw [requeued_of_running (s := s.popped e q) hrun] at hback
    refine dispatchNext_stuck hback hok (hstuck.imp_left fun hstuck => ?_)
    exact putBack_stuckWaiting (s := s.popped e q) hrun hstuck
  | priorityBoost => exact absurd he (hboost e (hq ▸ List.mem_cons_self))

end Round

theorem Stuck.loopBody_ne_none (hlinked : Linked s) (hidle : Idle s) (h : Stuck s) :
    s.loopBody ≠ none := by
  intro hend
  have hnil := loopBody_eq_none.mp hend
  obtain ⟨x, hx, _⟩ := h
  unfold Linked at hlinked
  rw [hnil] at hlinked
  cases hrun : s.running with
  | none => simp [hrun, hidle hrun] at hx
  | some p => simp [hrun, segmentEnds] at hlinked

end SchedulerState

open SchedulerState

variable {config : MLFQConfig} {hpos : 0 < config.numLevels} {w : Workload n}
variable {s : SchedulerState (.mlfq config hpos) n}

theorem startState_linked (hw : w.Nonneg) : Linked (startState (.mlfq config hpos) w) := by
  have h := startState_starting hw (.mlfq config hpos)
  unfold Linked
  rw [h.ends, h.running]
  rfl

theorem reaches_linked (hw : w.Nonneg) (hboost : config.boostPeriod ≤ 0)
    (hearly : NoEarlyEvent (.mlfq config hpos) w)
    (h : Loop.Reaches loopBody (startState (.mlfq config hpos) w) s) : Linked s := by
  induction h with
  | refl => exact startState_linked hw
  | tail hr hb ih =>
    have hsound := (reaches_sound hw hr fun t ht => .inl (hearly t ht)).1
    exact ih.round hsound hb (Reaches.boosts hboost hr)

theorem reaches_stuck (hw : w.Nonneg) (hboost : config.boostPeriod ≤ 0)
    (hearly : NoEarlyEvent (.mlfq config hpos) w)
    (h : Loop.Reaches loopBody (startState (.mlfq config hpos) w) s) :
    (∃ d ∈ s.dispatches, ¬ MakesProgress config d.record) → Stuck s := by
  induction h with
  | refl =>
    rintro ⟨d, hd, _⟩
    rw [(startState_starting hw (.mlfq config hpos)).dispatches] at hd
    cases hd
  | @tail a b hr hb ih =>
    rintro ⟨d, hd, hbad⟩
    obtain ⟨hsound, hidle⟩ := reaches_sound hw hr fun t ht => .inl (hearly t ht)
    refine stuck_round hsound hidle (reaches_linked hw hboost hearly hr) hb
      (.inl (hearly b (hr.tail hb))) (Reaches.boosts hboost hr) ?_
    by_cases hold : d ∈ a.dispatches
    · exact .inl (ih ⟨d, hold, hbad⟩)
    · exact .inr ⟨d, hd, hold, hbad⟩

theorem Stuck.not_terminates (hw : w.Nonneg) (hboost : config.boostPeriod ≤ 0)
    (hearly : NoEarlyEvent (.mlfq config hpos) w)
    (h : Loop.Reaches loopBody (startState (.mlfq config hpos) w) s) (hstuck : Stuck s) :
    ¬ Loop.Terminates loopBody (startState (.mlfq config hpos) w) := by
  rintro ⟨fuel, t, hrun⟩
  have hend := (Loop.run_reaches hrun).2
  have hkept : ∀ a b : SchedulerState (.mlfq config hpos) n, loopBody a = some b →
      Loop.Reaches loopBody (startState (.mlfq config hpos) w) a ∧ Stuck a →
      Loop.Reaches loopBody (startState (.mlfq config hpos) w) b ∧ Stuck b := by
    rintro a b hb ⟨ha, hat⟩
    obtain ⟨hsound, hidle⟩ := reaches_sound hw ha fun u hu => .inl (hearly u hu)
    exact ⟨ha.tail hb, stuck_round hsound hidle (reaches_linked hw hboost hearly ha) hb
      (.inl (hearly b (ha.tail hb))) (Reaches.boosts hboost ha) (.inl hat)⟩
  obtain ⟨hreach, hlast⟩ := (Loop.Reaches.of_run h hrun).invariant _ hkept ⟨h, hstuck⟩
  have hidle := (reaches_sound hw hreach fun u hu => .inl (hearly u hu)).2
  exact hlast.loopBody_ne_none (reaches_linked hw hboost hearly hreach) hidle hend

theorem terminates_progressRun (hw : w.Nonneg) (hboost : config.boostPeriod ≤ 0)
    (hterm : Loop.Terminates loopBody (startState (.mlfq config hpos) w))
    (hearly : NoEarlyEvent (.mlfq config hpos) w) : ProgressRun config hpos w := by
  intro s hs d hd
  by_contra hbad
  exact Stuck.not_terminates hw hboost hearly hs (reaches_stuck hw hboost hearly hs ⟨d, hd, hbad⟩) hterm

def EndsInTime (pol : Policy) (w : Workload n) : Prop :=
  Loop.Terminates loopBody (startState pol w) ∧ NoEarlyEvent pol w

def oneLevel (quantum allotment : Int) : MLFQConfig where
  levels := Function.update (fun _ => ⟨0, 0, 0⟩) 0 ⟨0, quantum, allotment⟩
  numLevels := 1
  boostPeriod := -1
  numLevels_le := one_le_maxMlfqLevels

theorem loadMlfqConfig_oneLine {line : List Char} {quantum allotment : Int}
    (hread : CText.readLines mlfqConfigLineMax line.length line = [line])
    (hline : configLine line = .queue ⟨0, quantum, allotment⟩)
    (hvalid : validateMlfqConfig (oneLevel quantum allotment) = true) :
    loadMlfqConfig (some line) = .ok (oneLevel quantum allotment) := by
  have hload : loadLine emptyConfig 1 line = .ok (oneLevel quantum allotment) := by
    rw [loadLine, hline]
    rfl
  exact loadMlfqConfig_single hread hload hvalid

theorem load_fiveFile : loadMlfqConfig (some "Q0 5 -1\n".toList) = .ok (oneLevel 5 (-1)) :=
  loadMlfqConfig_oneLine (by decide +kernel) (by decide +kernel) (by decide +kernel)

theorem load_zeroFile : loadMlfqConfig (some "Q0 0 10\n".toList) = .ok (oneLevel 0 10) :=
  loadMlfqConfig_oneLine (by decide +kernel) (by decide +kernel) (by decide +kernel)

theorem loadMlfqConfig_endsInTime {file : Option (List Char)}
    (hload : loadMlfqConfig file = .ok config) (hw : w.Nonneg) :
    (ProgressRun config (numLevels_pos_of_load hload) w →
      EndsInTime (.mlfq config (numLevels_pos_of_load hload)) w) ∧
    (config.boostPeriod ≤ 0 → EndsInTime (.mlfq config (numLevels_pos_of_load hload)) w →
      ProgressRun config (numLevels_pos_of_load hload) w) :=
  ⟨fun hrun => ⟨hrun.terminates hw, hrun.noEarlyEvent hw⟩,
    fun hboost h => terminates_progressRun hw hboost h.1 h.2⟩

theorem loadMlfqConfig_endsInTime_five :
    EndsInTime (.mlfq (oneLevel 5 (-1)) (by decide)) sampleWorkload := by
  refine (loadMlfqConfig_endsInTime load_fiveFile sampleWorkload_nonneg).1 fun s _ d _ => ?_
  unfold MakesProgress mlfqGetQuantum MLFQConfig.level?
  split_ifs with hlevel
  · have hzero : d.record.priority = 0 := by
      have : ((oneLevel 5 (-1)).numLevels : Int) = 1 := rfl
      omega
    simp [hzero, oneLevel]
  · simp

def starvedWorkload : Workload 1 where
  pid _ := ['P']
  arrivalTime _ := 0
  burstTime _ := 5

theorem zeroFile_not_endsInTime :
    ∃ hload : loadMlfqConfig (some "Q0 0 10\n".toList) = .ok (oneLevel 0 10),
      starvedWorkload.Nonneg ∧
        ¬ EndsInTime (.mlfq (oneLevel 0 10) (numLevels_pos_of_load hload)) starvedWorkload := by
  have hw : starvedWorkload.Nonneg := ⟨by decide, by decide⟩
  refine ⟨load_zeroFile, hw, fun h => ?_⟩
  have hrun := terminates_progressRun hw (by decide) h.1 h.2 _ (Loop.reaches_advance loopBody 1 _)
  revert hrun
  decide +kernel

end OsLab.Sched
