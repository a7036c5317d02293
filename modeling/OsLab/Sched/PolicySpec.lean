import OsLab.Sched.Policy

/-! What the handlers may rely on: how each queue operation changes the waiting processes, and
what one call of a scheduling algorithm does to the running process. -/

namespace OsLab.Sched

variable {n : Nat}

def SameTimes (ps ps' : Table n) : Prop := ∀ p, resetPriority (ps' p) = resetPriority (ps p)

namespace SameTimes

variable {ps ps' ps'' : Table n}

theorem refl (ps : Table n) : SameTimes ps ps := fun _ => rfl

theorem trans (h : SameTimes ps ps') (h' : SameTimes ps' ps'') : SameTimes ps ps'' := fun p =>
  (h' p).trans (h p)

theorem modify (ps : Table n) (p : Fin n) {f : Process → Process}
    (hf : ∀ r, resetPriority (f r) = resetPriority r) : SameTimes ps (ps.modify p f) :=
  fun q => Table.modify_field resetPriority ps p f (hf _) q

theorem arrivalTime (h : SameTimes ps ps') (p : Fin n) :
    (ps' p).arrivalTime = (ps p).arrivalTime := (congrArg Process.arrivalTime (h p) :)

theorem burstTime (h : SameTimes ps ps') (p : Fin n) : (ps' p).burstTime = (ps p).burstTime :=
  (congrArg Process.burstTime (h p) :)

theorem remainingTime (h : SameTimes ps ps') (p : Fin n) :
    (ps' p).remainingTime = (ps p).remainingTime := (congrArg Process.remainingTime (h p) :)

theorem startTime (h : SameTimes ps ps') (p : Fin n) : (ps' p).startTime = (ps p).startTime :=
  (congrArg Process.startTime (h p) :)

theorem finishTime (h : SameTimes ps ps') (p : Fin n) :
    (ps' p).finishTime = (ps p).finishTime := (congrArg Process.finishTime (h p) :)

end SameTimes

section MLFQ

variable {config : MLFQConfig}

theorem mlfqEnqueue_sameTimes (ps : Table n) (mq : MLFQProcessQueue n config) (p : Fin n) :
    SameTimes ps (mlfqEnqueue ps mq p).1 := by
  simp only [mlfqEnqueue]
  split
  · exact .modify ps p fun _ => rfl
  · exact .refl ps

theorem mlfqPriorityBoost_sameTimes (ps : Table n) (mq : MLFQProcessQueue n config) :
    SameTimes ps (mlfqPriorityBoost ps mq).1 := by
  unfold mlfqPriorityBoost
  induction mq.members generalizing ps with
  | nil => exact .refl ps
  | cons p l ih => exact (SameTimes.modify ps p (f := resetPriority) fun _ => rfl).trans (ih _)

theorem level?_isSome {level : Int} (h : mlfqGetAllotment config level ≠ -1) :
    0 ≤ level ∧ level < config.numLevels := by
  unfold mlfqGetAllotment MLFQConfig.level? at h
  by_contra hlevel
  simp only [dif_neg hlevel, ne_eq, not_true_eq_false] at h

def Demotes (config : MLFQConfig) (p : Process) : Prop :=
  mlfqGetAllotment config p.priority ≠ -1 ∧ mlfqGetAllotment config p.priority ≤ p.timeInQueue ∧
    p.priority + 1 < config.numLevels

instance (config : MLFQConfig) (p : Process) : Decidable (Demotes config p) :=
  inferInstanceAs (Decidable (_ ∧ _ ∧ _))

theorem mlfqCheckDemotion_eq (ps : Table n) (mq : MLFQProcessQueue n config) (p : Fin n) :
    mlfqCheckDemotion ps mq p =
      if Demotes config (ps p) then
        let r := mlfqMoveProcess ps mq p ((ps p).priority + 1)
        (true, r.1.modify p fun x => { x with priority := (ps p).priority + 1 }, r.2)
      else (false, ps, mq) := by
  unfold mlfqCheckDemotion mlfqDemoteProcess
  by_cases hallot : mlfqGetAllotment config (ps p).priority = -1
  · simp only [hallot, if_true, Demotes, ne_eq, not_true_eq_false, false_and, if_false]
  by_cases htime : (ps p).timeInQueue ≥ mlfqGetAllotment config (ps p).priority
  swap
  · simp only [hallot, htime, if_false, Demotes, false_and, and_false]
  have hlevel := level?_isSome hallot
  by_cases hnext : (ps p).priority + 1 < config.numLevels
  · have hd : Demotes config (ps p) := ⟨hallot, htime, hnext⟩
    have hne : (ps p).priority + 1 ≠ (ps p).priority := by omega
    simp only [if_pos hd, if_neg hallot, if_pos htime, if_neg (not_le.mpr hnext), if_pos hne]
  · have hd : ¬ Demotes config (ps p) := fun hd => hnext hd.2.2
    have heq : (config.numLevels : Int) - 1 = (ps p).priority := by omega
    simp only [if_neg hd, if_neg hallot, if_pos htime, if_pos (not_lt.mp hnext), heq, ne_eq,
      not_true_eq_false, if_false]

theorem mlfqMoveProcess_next {ps : Table n} (mq : MLFQProcessQueue n config) {p : Fin n}
    (hlo : 0 ≤ (ps p).priority) (hhi : (ps p).priority + 1 < config.numLevels) :
    (mlfqMoveProcess ps mq p ((ps p).priority + 1)).1 = ps.modify p (fun r =>
        { r with priority := (ps p).priority + 1, timeInQueue := 0 }) ∧
      (mlfqMoveProcess ps mq p ((ps p).priority + 1)).2.members.Perm
        (p :: (mq.levelQueues.remove (ps p).priority.toNat p).members) := by
  have h1 : ¬ (ps p).priority = (ps p).priority + 1 := by omega
  have h2 : ¬ ((ps p).priority < 0 ∨ (config.numLevels : Int) ≤ (ps p).priority) := by omega
  have h3 : 0 ≤ (ps p).priority + 1 ∧ (ps p).priority + 1 < config.numLevels := ⟨by omega, hhi⟩
  simp only [mlfqMoveProcess, if_neg h1, if_neg h2, dif_pos h3, true_and]
  exact Levels.members_push _ ((ps p).priority + 1).toNat (by omega) p

def mlfqPutBack (ps : Table n) (mq : MLFQProcessQueue n config) (p : Fin n) :
    Table n × MLFQProcessQueue n config :=
  let d := mlfqCheckDemotion ps mq p
  if d.1 then (d.2.1, d.2.2) else mlfqEnqueue d.2.1 d.2.2 p

theorem mlfqPutBack_of_demotes {ps : Table n} (mq : MLFQProcessQueue n config) {p : Fin n}
    (h : Demotes config (ps p)) :
    (mlfqPutBack ps mq p).1 = (ps.modify p fun r =>
        { r with priority := (ps p).priority + 1, timeInQueue := 0 }) ∧
      (mlfqPutBack ps mq p).2.members.Perm
        (p :: (mq.levelQueues.remove (ps p).priority.toNat p).members) := by
  obtain ⟨hps, hmem⟩ := mlfqMoveProcess_next mq (level?_isSome h.1).1 h.2.2
  simp only [mlfqPutBack, mlfqCheckDemotion_eq, if_pos h, if_true, hps]
  refine ⟨?_, hmem⟩
  simp only [Table.modify, Function.update_self, Function.update_idem]

theorem mlfqPutBack_of_not_demotes {ps : Table n} (mq : MLFQProcessQueue n config) {p : Fin n}
    (h : ¬ Demotes config (ps p)) : mlfqPutBack ps mq p = mlfqEnqueue ps mq p := by
  simp only [mlfqPutBack, mlfqCheckDemotion_eq, if_neg h, Bool.false_eq_true, if_false]

theorem mlfqMoveProcess_level {ps : Table n} {mq : MLFQProcessQueue n config} {p : Fin n} {i : Nat}
    (hi : i + 1 < config.numLevels) (hlevel : (ps p).priority = i) (hp : p ∉ mq.members) (j : Nat) :
    (mlfqMoveProcess ps mq p ((ps p).priority + 1)).2.level j =
      if j = i + 1 then mq.level (i + 1) ++ [p] else mq.level j := by
  have h1 : ¬ (ps p).priority = (ps p).priority + 1 := by omega
  have h2 : ¬ ((ps p).priority < 0 ∨ (config.numLevels : Int) ≤ (ps p).priority) := by omega
  have h3 : 0 ≤ (ps p).priority + 1 ∧ (ps p).priority + 1 < config.numLevels := by omega
  have hnext : ((ps p).priority + 1).toNat = i + 1 := by omega
  have hsame := mq.levelQueues.level_remove_of_notMem (ps p).priority.toNat hp
  simp only [mlfqMoveProcess, if_neg h1, if_neg h2, dif_pos h3, MLFQProcessQueue.level, hnext]
  rw [Levels.level_push, hsame, hsame]

theorem mlfqPutBack_level (ps : Table n) {mq : MLFQProcessQueue n config} {p : Fin n}
    (hrange : 0 ≤ (ps p).priority ∧ (ps p).priority < config.numLevels) (hp : p ∉ mq.members) :
    ∃ i : Nat, ((mlfqPutBack ps mq p).1 p).priority = i ∧ ∀ j, (mlfqPutBack ps mq p).2.level j =
      if j = i then mq.level i ++ [p] else mq.level j := by
  obtain ⟨i, hi⟩ := Int.eq_ofNat_of_zero_le hrange.1
  by_cases hd : Demotes config (ps p)
  · have hnext : i + 1 < config.numLevels := by
      have hbelow := hd.2.2
      omega
    have hqueue : (mlfqPutBack ps mq p).2 = (mlfqMoveProcess ps mq p ((ps p).priority + 1)).2 := by
      simp only [mlfqPutBack, mlfqCheckDemotion_eq, if_pos hd, if_true]
    refine ⟨i + 1, ?_, fun j => ?_⟩
    · rw [(mlfqPutBack_of_demotes mq hd).1, Table.modify_self, hi]
      rfl
    · rw [hqueue, mlfqMoveProcess_level hnext hi hp]
  · have hlt : i < config.numLevels := by omega
    rw [mlfqPutBack_of_not_demotes mq hd]
    refine ⟨i, ?_, mlfqEnqueue_level ps mq hlt hi⟩
    rw [mlfqEnqueue_eq ps mq hlt hi]
    exact hi

theorem mlfqPutBack_sameTimes (ps : Table n) (mq : MLFQProcessQueue n config) (p : Fin n) :
    SameTimes ps (mlfqPutBack ps mq p).1 := by
  by_cases hd : Demotes config (ps p)
  · rw [(mlfqPutBack_of_demotes mq hd).1]
    exact .modify ps p fun _ => rfl
  · rw [mlfqPutBack_of_not_demotes mq hd]
    exact mlfqEnqueue_sameTimes ps mq p

theorem mlfqPutBack_members (ps : Table n) {mq : MLFQProcessQueue n config} {p : Fin n}
    (hp : p ∉ mq.members) : (mlfqPutBack ps mq p).2.members.Perm (p :: mq.members) := by
  by_cases hd : Demotes config (ps p)
  · refine (mlfqPutBack_of_demotes mq hd).2.trans ?_
    rw [Levels.members_remove_of_notMem _ _ hp]
    rfl
  · rw [mlfqPutBack_of_not_demotes mq hd]
    exact mlfqEnqueue_members ps mq p

end MLFQ

namespace Policy

def Valid : Policy → Prop
  | .rr quantumTime => 1 ≤ quantumTime
  | .mlfq config _ => ∀ level, mlfqGetQuantum config level = -1 ∨ 1 ≤ mlfqGetQuantum config level
  | _ => True

theorem fcfs_valid : Policy.Valid .fcfs := trivial

theorem sjf_valid : Policy.Valid .sjf := trivial

theorem stcf_valid : Policy.Valid .stcf := trivial

theorem rr_valid {quantumTime : Int} (h : 1 ≤ quantumTime) : Policy.Valid (.rr quantumTime) := h

theorem mlfq_valid {config : MLFQConfig} {hpos : 0 < config.numLevels}
    (h : ∀ i : Fin maxMlfqLevels, i < config.numLevels →
      (config.levels i).timeQuantum = -1 ∨ 1 ≤ (config.levels i).timeQuantum) :
    Policy.Valid (.mlfq config hpos) := by
  intro level
  unfold mlfqGetQuantum
  obtain hnone | ⟨i, hi, hsome⟩ := config.level?_cases level
  · rw [hnone]
    exact .inl rfl
  · rw [hsome]
    exact h i hi

theorem rr_boostPeriod_le (quantumTime : Int) : (Policy.rr quantumTime).boostPeriod ≤ 0 := by
  show (-1 : Int) ≤ 0
  decide

def Nonpreemptive : Policy → Prop
  | .fcfs => True
  | .sjf => True
  | _ => False

theorem fcfs_nonpreemptive : Policy.Nonpreemptive .fcfs := trivial

theorem not_nonpreemptive_of_isStcf {pol : Policy} (h : pol.isStcf) : ¬ pol.Nonpreemptive := by
  cases pol <;> simp_all [isStcf, Nonpreemptive]

variable (pol : Policy) (ps : Table n) (q : pol.Queue n) (p : Fin n)

theorem members_emptyQueue : pol.members (pol.emptyQueue n) = [] := by
  cases pol <;> simp [members, emptyQueue, constructRRProcessQueue, RRProcessQueue.members,
    MLFQProcessQueue.members]

theorem size_eq : pol.size q = (pol.members q).length := by
  cases pol with
  | rr quantum =>
    simp only [size, members, RRProcessQueue.members, List.length_append]
    exact RRProcessQueue.size_eq q
  | mlfq config h => exact (MLFQProcessQueue.levelQueues q).size_eq
  | _ => exact CountedList.size_eq q

theorem enqueue_sameTimes : SameTimes ps (pol.enqueue ps q p).1 := by
  cases pol with
  | mlfq config h => exact mlfqEnqueue_sameTimes ps q p
  | _ => exact .refl ps

theorem enqueue_members : (pol.members (pol.enqueue ps q p).2).Perm (p :: pol.members q) := by
  cases pol with
  | fcfs => exact List.perm_append_singleton ..
  | sjf => exact insertBefore_perm ..
  | stcf => exact insertBefore_perm ..
  | rr quantum => exact rrEnqueue_members q p
  | mlfq config h => exact mlfqEnqueue_members ps q p

variable {pol q p}

theorem dequeue_members {q' : pol.Queue n} (h : pol.dequeue q = some (p, q')) :
    pol.members q = p :: pol.members q' := by
  cases pol with
  | rr quantum => exact rrDequeue_members h
  | mlfq config h' => exact mlfqDequeue_members h
  | _ => exact CountedList.popFront_eq_some.mp h

theorem dequeue_eq_none : pol.dequeue q = none ↔ pol.members q = [] := by
  cases pol with
  | rr quantum => exact rrDequeue_eq_none
  | mlfq config h' => exact mlfqDequeue_eq_none
  | _ => exact CountedList.popFront_eq_none

theorem size_pos_iff : 0 < pol.size q ↔ pol.members q ≠ [] := by
  rw [size_eq, List.length_pos_iff]

theorem priorityBoost_sameTimes : SameTimes ps (pol.priorityBoost ps q).1 := by
  cases pol with
  | mlfq config h => exact mlfqPriorityBoost_sameTimes ps q
  | _ => exact .refl ps

theorem priorityBoost_members : pol.members (pol.priorityBoost ps q).2 = pol.members q := by
  cases pol with
  | mlfq config h => exact mlfqPriorityBoost_members ps q
  | _ => rfl

theorem putBack_spec (hp : p ∉ pol.members q) :
    let d := pol.checkDemotion ps q p
    SameTimes ps (pol.requeue d.2.1 d.1 d.2.2 p).1 ∧
      (pol.members (pol.requeue d.2.1 d.1 d.2.2 p).2).Perm (p :: pol.members q) := by
  cases pol with
  | fcfs => exact ⟨enqueue_sameTimes .fcfs ps q p, enqueue_members .fcfs ps q p⟩
  | sjf => exact ⟨enqueue_sameTimes .sjf ps q p, enqueue_members .sjf ps q p⟩
  | stcf => exact ⟨enqueue_sameTimes .stcf ps q p, enqueue_members .stcf ps q p⟩
  | rr quantum => exact ⟨.refl ps, rrRequeue_members q p⟩
  | mlfq config h =>
    exact ⟨mlfqPutBack_sameTimes ps q p, mlfqPutBack_members ps hp⟩

end Policy

/-- One call of an algorithm on the process record `p` at time `now`, with the result `out`. -/
structure Scheduled (now : Int) (p : Process) (out : Process × Int) : Prop where
  arrivalTime : out.1.arrivalTime = p.arrivalTime
  burstTime : out.1.burstTime = p.burstTime
  remainingTime : out.1.remainingTime = p.remainingTime
  nonneg : 0 ≤ out.2
  le : out.2 ≤ p.remainingTime
  progress : out.2 = 0 → p.remainingTime = 0
  startTime : out.1.startTime = if p.startTime = -1 then now else p.startTime
  finishTime : out.1.finishTime = if out.2 = p.remainingTime then now + out.2 else p.finishTime

theorem runToCompletion_scheduled {now : Int} {p : Process} (hrem : 0 ≤ p.remainingTime)
    (hstart : p.startTime = -1) (hburst : p.remainingTime = p.burstTime) :
    Scheduled now p (runToCompletion now p) where
  arrivalTime := rfl
  burstTime := rfl
  remainingTime := rfl
  nonneg := hrem
  le := le_rfl
  progress := id
  startTime := by simp [runToCompletion, hstart]
  finishTime := by simp [runToCompletion, hburst]

theorem scheduled_of_stamps {now : Int} {p : Process} {out : Process × Int}
    (hfields : out.1.arrivalTime = p.arrivalTime ∧ out.1.burstTime = p.burstTime ∧
      out.1.remainingTime = p.remainingTime)
    (hrun : 0 ≤ out.2 ∧ out.2 ≤ p.remainingTime ∧ (out.2 = 0 → p.remainingTime = 0))
    (hstart : out.1.startTime = if p.startTime = -1 then now else p.startTime)
    (hfinish : out.1.finishTime = if out.2 = p.remainingTime then now + out.2 else p.finishTime) :
    Scheduled now p out :=
  ⟨hfields.1, hfields.2.1, hfields.2.2, hrun.1, hrun.2.1, hrun.2.2, hstart, hfinish⟩

theorem scheduleRr_scheduled {quantum now : Int} {p : Process} (hq : 1 ≤ quantum)
    (hrem : 0 ≤ p.remainingTime) : Scheduled now p (scheduleRr quantum now p) := by
  unfold scheduleRr
  generalize hr : (if p.remainingTime ≤ quantum then p.remainingTime else quantum) = r
  refine scheduled_of_stamps ?_ ?_ ?_ ?_ <;> dsimp only
  · split_ifs <;> exact ⟨rfl, rfl, rfl⟩
  · split_ifs at hr <;> omega
  · split_ifs <;> rfl
  · split_ifs <;> rfl

theorem scheduleMlfq_runTime (config : MLFQConfig) (now : Int) (p : Process) :
    (scheduleMlfq config now p).2 =
      if mlfqGetQuantum config p.priority = -1 then p.remainingTime
      else min p.remainingTime (mlfqGetQuantum config p.priority) := by
  simp only [scheduleMlfq]
  split_ifs <;> omega

theorem scheduleMlfq_finishTime (config : MLFQConfig) (now : Int) (p : Process) :
    (scheduleMlfq config now p).1.finishTime =
      if (scheduleMlfq config now p).2 = p.remainingTime then now + (scheduleMlfq config now p).2
      else p.finishTime := by
  unfold scheduleMlfq setFinish
  dsimp only
  split_ifs <;> rfl

theorem scheduleMlfq_record (config : MLFQConfig) (now : Int) (r : Process) :
    (scheduleMlfq config now r).1.remainingTime = r.remainingTime ∧
      (scheduleMlfq config now r).1.priority = r.priority ∧
      (scheduleMlfq config now r).1.timeInQueue = r.timeInQueue + (scheduleMlfq config now r).2 ∧
      ((scheduleMlfq config now r).2 = r.remainingTime →
        (scheduleMlfq config now r).1.finishTime = now + (scheduleMlfq config now r).2) := by
  refine ⟨?_, ?_, ?_, fun hall => by rw [scheduleMlfq_finishTime, if_pos hall]⟩
  all_goals
    unfold scheduleMlfq setFinish
    dsimp only
    split_ifs <;> rfl

theorem scheduleMlfq_scheduled {config : MLFQConfig} {now : Int} {p : Process}
    (hq : mlfqGetQuantum config p.priority = -1 ∨ 1 ≤ mlfqGetQuantum config p.priority)
    (hrem : 0 ≤ p.remainingTime) : Scheduled now p (scheduleMlfq config now p) := by
  have hr := scheduleMlfq_runTime config now p
  refine scheduled_of_stamps ?_ ?_ ?_ ?_
  · unfold scheduleMlfq setFinish
    dsimp only
    split_ifs <;> exact ⟨rfl, rfl, rfl⟩
  · rw [hr]
    split_ifs <;> omega
  · unfold scheduleMlfq setFinish
    dsimp only
    split_ifs <;> rfl
  · exact scheduleMlfq_finishTime config now p

theorem scheduleStcf_runTime (q : EventQueue n) (now : Int) (p : Process) :
    (scheduleStcf q now p).2 = p.remainingTime ∨
      ∃ e, peekNextArrival q = some e ∧ now < e.time ∧ e.time - now < p.remainingTime ∧
        (scheduleStcf q now p).2 = e.time - now := by
  simp only [scheduleStcf]
  cases hpeek : peekNextArrival q with
  | none => left; split_ifs <;> simp_all
  | some e =>
    by_cases hlt : e.time > now
    · by_cases hle : p.remainingTime ≤ e.time - now
      · left
        split_ifs <;> simp_all
      · right
        refine ⟨e, rfl, hlt, by omega, ?_⟩
        split_ifs <;> simp_all <;> omega
    · left
      split_ifs <;> simp_all

theorem scheduleStcf_scheduled {q : EventQueue n} {now : Int} {p : Process}
    (hrem : 0 ≤ p.remainingTime) : Scheduled now p (scheduleStcf q now p) := by
  refine scheduled_of_stamps ?_ ?_ ?_ ?_
  · unfold scheduleStcf setFinish
    dsimp only
    split_ifs <;> exact ⟨rfl, rfl, rfl⟩
  · rcases scheduleStcf_runTime q now p with h | ⟨e, _, hlt, hle, h⟩ <;> rw [h] <;> omega
  · unfold scheduleStcf setFinish
    dsimp only
    split_ifs <;> rfl
  · unfold scheduleStcf setFinish
    dsimp only
    split_ifs <;> rfl

theorem Policy.schedule_scheduled {pol : Policy} (hpol : pol.Valid) {q : EventQueue n} {now : Int}
    {p : Process} (hrem : 0 ≤ p.remainingTime)
    (hfresh : pol.Nonpreemptive → p.startTime = -1 ∧ p.remainingTime = p.burstTime) :
    Scheduled now p (pol.schedule q now p) := by
  cases pol with
  | fcfs => exact runToCompletion_scheduled hrem (hfresh trivial).1 (hfresh trivial).2
  | sjf => exact runToCompletion_scheduled hrem (hfresh trivial).1 (hfresh trivial).2
  | stcf => exact scheduleStcf_scheduled hrem
  | rr quantum => exact scheduleRr_scheduled hpol hrem
  | mlfq config h => exact scheduleMlfq_scheduled (hpol _) hrem

theorem Policy.schedule_nonpreemptive {pol : Policy} (h : pol.Nonpreemptive) (q : EventQueue n)
    (now : Int) (p : Process) : (pol.schedule q now p).2 = p.remainingTime := by
  cases pol with
  | fcfs => rfl
  | sjf => rfl
  | _ => exact h.elim

end OsLab.Sched
