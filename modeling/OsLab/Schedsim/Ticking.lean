import OsLab.Foundation.Ticks
import OsLab.Sched.BusyTimes
import OsLab.Schedsim.Rr
import OsLab.Schedsim.Sjf

/-! The four tick-stepped schedulers give away one time unit in every round that is not idle. So each
of them ends exactly if every burst is at least one unit long, and then its CPU is busy at the times
of the event-driven simulator, whichever the policy. -/

namespace OsLab.Schedsim

open Sched

variable {n : Nat}

/-- `unqueued` is what is left of the array of pointers, `ready` the queue or heap together with the
current process, and `count` the counter of the completed processes. -/
structure Seen (w : Workload n) (state : SchedulerState n) (unqueued ready : List (Fin n))
    (count : Nat) (t : Ticks (Fin n)) : Prop where
  now : t.now = state.currentTime
  pending : t.pending = unqueued
  ready : t.ready = ready
  count : t.finished.card = count
  left : t.left = fun p => (state.processes p).remainingTime
  start : t.start = fun p => (state.processes p).startTime
  stop : t.stop = fun p => (state.processes p).finishTime
  arrivalTime : ∀ p, (state.processes p).arrivalTime = w.arrivalTime p

/-- What a time unit of `p` makes of the state. -/
structure RanUnit (s : SchedulerState n) (p : Fin n) (s' : SchedulerState n) : Prop where
  currentTime : s'.currentTime = s.currentTime + 1
  arrivalTime : ∀ q, (s'.processes q).arrivalTime = (s.processes q).arrivalTime
  remainingTime : (fun q => (s'.processes q).remainingTime) =
    Function.update (fun q => (s.processes q).remainingTime) p ((s.processes p).remainingTime - 1)
  startTime : (fun q => (s'.processes q).startTime) = Function.update
    (fun q => (s.processes q).startTime) p
    (if (s.processes p).startTime = unknownTime then s.currentTime else (s.processes p).startTime)
  finishTime : (fun q => (s'.processes q).finishTime) =
    if (s.processes p).remainingTime = 1 then
      Function.update (fun q => (s.processes q).finishTime) p (s.currentTime + 1)
    else fun q => (s.processes q).finishTime

section Seen

variable {w : Workload n} {s s' : SchedulerState n} {unqueued unqueued' ready ready' rest late : List (Fin n)}
  {count : Nat} {t : Ticks (Fin n)} {p : Fin n}

theorem seen_start (w : Workload n) :
    Seen w (initialState w) (List.finRange n) [] 0 (Ticks.init w.burstTime unknownTime) where
  now := rfl
  pending := by
    show Finset.univ.val = _
    rw [Fin.univ_def]
  ready := rfl
  count := rfl
  left := rfl
  start := rfl
  stop := rfl
  arrivalTime _ := rfl

theorem Seen.hasArrived_iff (h : Seen w s unqueued ready count t) :
    s.hasArrived p = true ↔ w.arrivalTime p ≤ t.now := by
  rw [SchedulerState.hasArrived, decide_eq_true_eq, h.arrivalTime, h.now]

theorem Seen.not_hasArrived_iff (h : Seen w s unqueued ready count t) :
    s.hasArrived p = false ↔ t.now < w.arrivalTime p := by
  rw [SchedulerState.hasArrived, decide_eq_false_iff_not, h.arrivalTime, h.now, not_le]

theorem Seen.idle (h : Seen w s unqueued [] count t) (htaken : (swept s.hasArrived unqueued).2 = []) :
    ∃ t', Ticks.Tick w.arrivalTime unknownTime t none t' ∧
      Seen w { s with currentTime := s.currentTime + 1 } (swept s.hasArrived unqueued).1 [] count t' := by
  have hperm := swept_perm s.hasArrived unqueued
  rw [htaken, List.nil_append] at hperm
  refine ⟨_, .idle h.ready fun p hp => ?_, { h with now := ?_, pending := ?_ }⟩
  · rw [h.pending, Multiset.mem_coe, ← hperm.mem_iff, mem_swept_left, h.not_hasArrived_iff] at hp
    exact hp.2
  · show t.now + 1 = s.currentTime + 1
    rw [h.now]
  · rw [h.pending]
    exact Multiset.coe_eq_coe.mpr hperm.symm

theorem Seen.picks (h : Seen w s unqueued ready count t)
    (hpick : (ready ++ (swept s.hasArrived unqueued).2).Perm (p :: rest))
    (hlate : (late ++ unqueued').Perm (swept s.hasArrived unqueued).1)
    (hlate' : ∀ q ∈ late, w.arrivalTime q ≤ s.currentTime + 1) :
    t.Picks w.arrivalTime p rest late unqueued' := by
  refine ⟨⟨(swept s.hasArrived unqueued).2, ?_, fun q hq => ?_, ?_⟩, fun q hq => ?_, fun q hq => ?_⟩
  · rw [h.pending, Multiset.coe_add, Multiset.coe_add]
    exact Multiset.coe_eq_coe.mpr ((swept_perm _ _).symm.trans (hlate.symm.append_left _))
  · exact h.hasArrived_iff.mp (mem_swept_taken.mp hq).2
  · rw [h.ready]
    exact Multiset.coe_eq_coe.mpr hpick
  · rw [Multiset.coe_add, Multiset.mem_coe, hlate.mem_iff] at hq
    exact h.not_hasArrived_iff.mp (mem_swept_left.mp hq).2
  · rw [h.now]
    exact hlate' q hq

theorem Seen.unit (h : Seen w s unqueued ready count t)
    (hpick : (ready ++ (swept s.hasArrived unqueued).2).Perm (p :: rest))
    (hlate : (late ++ unqueued').Perm (swept s.hasArrived unqueued).1)
    (hlate' : ∀ q ∈ late, w.arrivalTime q ≤ s.currentTime + 1) (hrun : RanUnit s p s')
    (hready : ready'.Perm (if (s.processes p).remainingTime = 1 then rest ++ late
      else p :: (rest ++ late))) :
    ∃ t', Ticks.Tick w.arrivalTime unknownTime t (some p) t' ∧
      Seen w s' unqueued' ready'
        (if (s.processes p).remainingTime = 1 then count + 1 else count) t' := by
  have hpicks := h.picks hpick hlate hlate'
  have hleft : t.left p = (s.processes p).remainingTime := congrFun h.left p
  have hnow : t.now + 1 = s'.currentTime := by rw [h.now, hrun.currentTime]
  have harrival : ∀ q, (s'.processes q).arrivalTime = w.arrivalTime q := fun q =>
    (hrun.arrivalTime q).trans (h.arrivalTime q)
  have hcharged : Function.update t.left p (t.left p - 1) =
      fun q => (s'.processes q).remainingTime := by
    rw [hrun.remainingTime, h.left]
  have hstarted : Function.update t.start p
      (if t.start p = unknownTime then t.now else t.start p) =
      fun q => (s'.processes q).startTime := by
    rw [hrun.startTime, h.start, h.now]
  have hstop := hrun.finishTime
  by_cases hone : (s.processes p).remainingTime = 1
  · rw [if_pos hone] at hready hstop ⊢
    refine ⟨_, .finish p rest late unqueued' hpicks (hleft.trans hone),
      ⟨hnow, rfl, ?_, ?_, hcharged, hstarted, ?_, harrival⟩⟩
    · show (rest + late : Multiset (Fin n)) = ready'
      rw [Multiset.coe_add]
      exact Multiset.coe_eq_coe.mpr hready.symm
    · show (p ::ₘ t.finished).card = count + 1
      rw [Multiset.card_cons, h.count]
    · show Function.update t.stop p (t.now + 1) = _
      rw [hstop, h.stop, h.now]
  · rw [if_neg hone] at hready hstop ⊢
    refine ⟨_, .goOn p rest late unqueued' hpicks (fun heq => hone (hleft.symm.trans heq)),
      ⟨hnow, rfl, ?_, h.count, hcharged, hstarted, h.stop.trans hstop.symm, harrival⟩⟩
    show (p ::ₘ (rest + late) : Multiset (Fin n)) = ready'
    rw [Multiset.coe_add, Multiset.cons_coe]
    exact Multiset.coe_eq_coe.mpr hready.symm

end Seen

def startTable (now : Int) (p : Fin n) (ps : Table n) : Table n :=
  if (ps p).startTime = unknownTime then ps.modify p fun q => { q with startTime := now } else ps

def unitTable (p : Fin n) (ps : Table n) : Table n :=
  ps.modify p fun q => { q with remainingTime := q.remainingTime - 1 }

def finishTable (now : Int) (p : Fin n) (ps : Table n) : Table n :=
  if (ps p).remainingTime = 0 then ps.modify p fun q => { q with finishTime := now } else ps

section Tables

variable {γ : Type*} {ps : Table n} {now : Int} {p : Fin n}

theorem startTable_field (field : Process → γ)
    (hfield : ∀ (q : Process) (t : Int), field { q with startTime := t } = field q) (q : Fin n) :
    field (startTable now p ps q) = field (ps q) := by
  unfold startTable
  split_ifs
  · exact Table.modify_field field ps p _ (hfield _ _) q
  · rfl

theorem unitTable_field (field : Process → γ)
    (hfield : ∀ (q : Process) (r : Int), field { q with remainingTime := r } = field q) (q : Fin n) :
    field (unitTable p ps q) = field (ps q) := Table.modify_field field ps p _ (hfield _ _) q

theorem finishTable_field (field : Process → γ)
    (hfield : ∀ (q : Process) (t : Int), field { q with finishTime := t } = field q) (q : Fin n) :
    field (finishTable now p ps q) = field (ps q) := by
  unfold finishTable
  split_ifs
  · exact Table.modify_field field ps p _ (hfield _ _) q
  · rfl

theorem startTable_startTime : (fun q => (startTable now p ps q).startTime) =
    Function.update (fun q => (ps q).startTime) p
      (if (ps p).startTime = unknownTime then now else (ps p).startTime) := by
  unfold startTable
  split_ifs
  · exact Table.field_modify Process.startTime ps p _
  · exact (Function.update_eq_self p fun q => (ps q).startTime).symm

theorem startTable_of_started (h : (ps p).startTime ≠ unknownTime) : startTable now p ps = ps :=
  if_neg h

theorem ranUnit {s s' : SchedulerState n} (htime : s'.currentTime = s.currentTime + 1)
    (hps : s'.processes = finishTable (s.currentTime + 1) p
      (unitTable p (startTable s.currentTime p s.processes))) : RanUnit s p s' := by
  have hleft : ∀ q, (unitTable p (startTable s.currentTime p s.processes) q).remainingTime =
      Function.update (fun q => (s.processes q).remainingTime) p
        ((s.processes p).remainingTime - 1) q := by
    intro q
    have hkept : ∀ r, (startTable s.currentTime p s.processes r).remainingTime =
        (s.processes r).remainingTime := startTable_field Process.remainingTime fun _ _ => rfl
    rw [unitTable, congrFun (Table.field_modify Process.remainingTime _ p _) q]
    simp only [hkept]
  refine ⟨htime, fun q => ?_, ?_, ?_, ?_⟩
  · rw [hps, finishTable_field Process.arrivalTime fun _ _ => rfl,
      unitTable_field Process.arrivalTime fun _ _ => rfl,
      startTable_field Process.arrivalTime fun _ _ => rfl]
  · funext q
    rw [hps, finishTable_field Process.remainingTime fun _ _ => rfl, hleft]
  · rw [← startTable_startTime]
    funext q
    rw [hps, finishTable_field Process.startTime fun _ _ => rfl,
      unitTable_field Process.startTime fun _ _ => rfl]
  · have hkept : ∀ q, (unitTable p (startTable s.currentTime p s.processes) q).finishTime =
        (s.processes q).finishTime := fun q => by
      rw [unitTable_field Process.finishTime fun _ _ => rfl,
        startTable_field Process.finishTime fun _ _ => rfl]
    have hself := hleft p
    rw [Function.update_self] at hself
    rw [hps, finishTable, hself]
    by_cases hone : (s.processes p).remainingTime = 1
    · rw [if_pos (by omega), if_pos hone, Table.field_modify]
      simp only [hkept]
    · rw [if_neg (by omega), if_neg hone]
      exact funext hkept

theorem unitTable_remainingTime (p : Fin n) (ps : Table n) :
    (unitTable p ps p).remainingTime = (ps p).remainingTime - 1 := by
  rw [unitTable, Table.modify_self]

theorem ranUnit_of_tables {s s₁ s' : SchedulerState n}
    (hps : s₁.processes = startTable s.currentTime p s.processes)
    (hnow : s₁.currentTime = s.currentTime) (hnow' : s'.currentTime = s₁.currentTime + 1)
    (hps' : s'.processes = finishTable (s₁.currentTime + 1) p (unitTable p s₁.processes)) :
    (s₁.processes p).remainingTime = (s.processes p).remainingTime ∧ RanUnit s p s' := by
  rw [hps, hnow] at hps'
  rw [hnow] at hnow'
  refine ⟨?_, ranUnit hnow' hps'⟩
  rw [hps, startTable_field Process.remainingTime fun _ _ => rfl]

theorem arrivalTime_le_of_hasArrived {w : Workload n} {s s₁ s₂ : SchedulerState n} {q : Fin n}
    (harrival : ∀ q, (s.processes q).arrivalTime = w.arrivalTime q)
    (hps : s₁.processes = startTable s.currentTime p s.processes)
    (hnow : s₁.currentTime = s.currentTime) (hps₂ : s₂.processes = unitTable p s₁.processes)
    (hnow₂ : s₂.currentTime = s₁.currentTime + 1) (hq : s₂.hasArrived q = true) :
    w.arrivalTime q ≤ s.currentTime + 1 := by
  rw [SchedulerState.hasArrived, decide_eq_true_eq, hps₂,
    unitTable_field Process.arrivalTime fun _ _ => rfl, hps,
    startTable_field Process.arrivalTime fun _ _ => rfl, harrival, hnow₂, hnow] at hq
  exact hq

theorem RanUnit.started {s s' : SchedulerState n} (h : RanUnit s p s') (htime : 0 ≤ s.currentTime) :
    (s'.processes p).startTime ≠ unknownTime := by
  have hstart := congrFun h.startTime p
  rw [Function.update_self] at hstart
  rw [hstart]
  split_ifs with hunknown
  · simp only [unknownTime]
    omega
  · exact hunknown

end Tables

namespace Fcfs

variable {w : Workload n} {s s' : Fcfs n} {t : Ticks (Fin n)} {p : Fin n}

def runs (s : Fcfs n) : Option (Fin n) :=
  if s.completeCounter < n then s.checkArrivals.pick.map Prod.fst else none

structure Views (w : Workload n) (s : Fcfs n) (t : Ticks (Fin n)) : Prop
    extends Seen w s.state s.unqueued (s.currentProcess.toList ++ s.queue) s.completeCounter t where
  time : 0 ≤ s.state.currentTime
  started : ∀ p ∈ s.currentProcess, (s.state.processes p).startTime ≠ unknownTime

theorem checkArrivals_eq (s : Fcfs n) : s.checkArrivals = { s with
    unqueued := (swept s.state.hasArrived s.unqueued).1
    queue := s.queue ++ (swept s.state.hasArrived s.unqueued).2 } := by
  unfold checkArrivals
  rw [sweep_eq, foldl_enqueue]

theorem Views.pick (h : Views w s t) {s₁ : Fcfs n} (hs : s.checkArrivals.pick = some (p, s₁)) :
    s₁.state.processes = startTable s.state.currentTime p s.state.processes ∧
      s₁.state.currentTime = s.state.currentTime ∧
      s₁.unqueued = (swept s.state.hasArrived s.unqueued).1 ∧ s₁.currentProcess = some p ∧
      s₁.completeCounter = s.completeCounter ∧
      s.currentProcess.toList ++ s.queue ++ (swept s.state.hasArrived s.unqueued).2 =
        p :: s₁.queue := by
  rw [checkArrivals_eq] at hs
  rcases pick_eq_some hs with ⟨hrun, rfl⟩ | ⟨hrun, queue, hqueue, rfl⟩
  · refine ⟨(startTable_of_started (h.started p hrun)).symm, rfl, rfl, hrun, rfl, ?_⟩
    have hrun : s.currentProcess = some p := hrun
    rw [hrun]
    simp
  · have hrun : s.currentProcess = none := hrun
    have hqueue : s.queue ++ (swept s.state.hasArrived s.unqueued).2 = p :: queue := hqueue
    rw [hrun, Option.toList_none, List.nil_append, hqueue]
    unfold startProcess startTable
    split_ifs <;> exact ⟨rfl, rfl, rfl, rfl, rfl, rfl⟩

theorem unit_spec (s : Fcfs n) (p : Fin n) (hrun : s.currentProcess = some p) :
    ((s.tick p).completeIfDone p).state.processes =
        finishTable (s.state.currentTime + 1) p (unitTable p s.state.processes) ∧
      ((s.tick p).completeIfDone p).state.currentTime = s.state.currentTime + 1 ∧
      ((s.tick p).completeIfDone p).unqueued = s.unqueued ∧
      ((s.tick p).completeIfDone p).queue = s.queue ∧
      ((s.tick p).completeIfDone p).currentProcess =
        (if (s.state.processes p).remainingTime = 1 then none else some p) ∧
      ((s.tick p).completeIfDone p).completeCounter =
        if (s.state.processes p).remainingTime = 1 then s.completeCounter + 1
        else s.completeCounter := by
  have hleft := unitTable_remainingTime p s.state.processes
  by_cases hone : (s.state.processes p).remainingTime = 1
  · have hzero : (unitTable p s.state.processes p).remainingTime = 0 := by omega
    rw [completeIfDone, if_pos (show ((s.tick p).state.processes p).remainingTime = 0 from hzero),
      finishTable, if_pos hzero, if_pos hone, if_pos hone]
    exact ⟨rfl, rfl, rfl, rfl, rfl, rfl⟩
  · have hzero : ¬ (unitTable p s.state.processes p).remainingTime = 0 := by omega
    rw [completeIfDone, if_neg (show ¬ ((s.tick p).state.processes p).remainingTime = 0 from hzero),
      finishTable, if_neg hzero, if_neg hone, if_neg hone]
    exact ⟨rfl, rfl, rfl, rfl, hrun, rfl⟩

theorem Views.round (h : Views w s t) (hs : s.round = some s') :
    ∃ t', Ticks.Tick w.arrivalTime unknownTime t s.runs t' ∧ Views w s' t' := by
  have htime := h.time
  unfold Fcfs.round at hs
  unfold runs
  split_ifs at hs ⊢ with hcount
  cases hpick : s.checkArrivals.pick with
  | none =>
    rw [hpick] at hs
    cases hs
    obtain ⟨hrun, hqueue⟩ := pick_eq_none hpick
    rw [checkArrivals_eq] at hrun hqueue ⊢
    obtain ⟨hqueue, htaken⟩ := List.append_eq_nil_iff.mp hqueue
    have hseen := h.toSeen
    have hrun : s.currentProcess = none := hrun
    rw [hrun, hqueue] at hseen
    obtain ⟨t', ht, hseen'⟩ := hseen.idle htaken
    refine ⟨t', ht, ?_, Int.add_nonneg htime Int.one_nonneg, h.started⟩
    show Seen w _ _ (s.currentProcess.toList ++ (s.queue ++ _)) s.completeCounter t'
    rw [hrun, hqueue, htaken]
    exact hseen'
  | some r =>
    obtain ⟨p, s₁⟩ := r
    rw [hpick] at hs
    cases hs
    obtain ⟨hps, hnow, hunqueued, hrun, hcounter, hready⟩ := h.pick hpick
    obtain ⟨hps', hnow', hunqueued', hqueue', hrun', hcounter'⟩ := unit_spec s₁ p hrun
    obtain ⟨hleft, hunit⟩ := ranUnit_of_tables hps hnow hnow' hps'
    rw [hleft] at hrun' hcounter'
    have hperm : (((s₁.tick p).completeIfDone p).currentProcess.toList ++ s₁.queue).Perm
        (if (s.state.processes p).remainingTime = 1 then s₁.queue ++ [] else p :: (s₁.queue ++ [])) := by
      rw [hrun', List.append_nil]
      split_ifs <;> exact .refl _
    obtain ⟨t', ht, hseen⟩ := h.toSeen.unit (.of_eq hready) (.refl _)
      (fun _ hq => absurd hq List.not_mem_nil) hunit hperm
    refine ⟨t', ht, ?_, ?_, ?_⟩
    · rw [hunqueued', hqueue', hcounter', hunqueued, hcounter]
      exact hseen
    · rw [hnow', hnow]
      exact Int.add_nonneg htime Int.one_nonneg
    · intro q hq
      rw [hrun'] at hq
      split_ifs at hq
      · cases hq
      · cases hq
        exact hunit.started htime

theorem ticking (w : Workload n) : Ticking w.arrivalTime unknownTime round
    (fun s => s.state.currentTime) runs (Views w) where
  tick h hs := h.round hs
  ended {s t} h := by
    rw [h.count, Fintype.card_fin, round]
    split_ifs with hcount
    · refine iff_of_false ?_ (Nat.not_le_of_lt hcount)
      split <;> simp
    · exact iff_of_true rfl (Nat.le_of_not_lt hcount)
  runs_ended {s} hs := by
    unfold round at hs
    unfold runs
    split_ifs at hs ⊢
    · split at hs <;> cases hs
    · rfl
  now h := h.now

theorem views_start (w : Workload n) : Views w (start w) (Ticks.init w.burstTime unknownTime) :=
  ⟨seen_start w, le_rfl, nofun⟩

end Fcfs

namespace Sjf

variable {side : MergeSide} {w : Workload n} {s s' : Sjf n} {t : Ticks (Fin n)} {p : Fin n}

structure Views (w : Workload n) (s : Sjf n) (t : Ticks (Fin n)) : Prop
    extends Seen w s.state s.notInserted (s.currentProcess.toList ++ s.heap) s.completedProcess t where
  time : 0 ≤ s.state.currentTime
  started : ∀ p ∈ s.currentProcess, (s.state.processes p).startTime ≠ unknownTime

theorem Views.pick (h : Views w s t) {s₁ : Sjf n}
    (hs : (s.checkArrivalsHeap side).pick side = some (p, s₁)) :
    s₁.state.processes = startTable s.state.currentTime p s.state.processes ∧
      s₁.state.currentTime = s.state.currentTime ∧
      s₁.notInserted = (swept s.state.hasArrived s.notInserted).1 ∧ s₁.currentProcess = some p ∧
      s₁.completedProcess = s.completedProcess ∧
      (s.currentProcess.toList ++ s.heap ++ (swept s.state.hasArrived s.notInserted).2).Perm
        (p :: s₁.heap) := by
  obtain ⟨hperm, hscan⟩ := checkArrivalsHeap_spec side s
  rw [hscan] at hs
  rcases pick_eq_some hs with ⟨hrun, rfl⟩ | ⟨hrun, heap, hheap, rfl⟩
  · refine ⟨(startTable_of_started (h.started p hrun)).symm, rfl, rfl, hrun, rfl, ?_⟩
    have hrun : s.currentProcess = some p := hrun
    rw [hrun, List.append_assoc]
    exact hperm.symm.cons p
  · have hrun : s.currentProcess = none := hrun
    rw [hrun, Option.toList_none, List.nil_append]
    exact ⟨rfl, rfl, rfl, rfl, rfl, hperm.symm.trans (MinHeap.heapExtractMin_perm hheap)⟩

theorem unit_spec (s : Sjf n) (p : Fin n) (hrun : s.currentProcess = some p) :
    ((s.tick p).completeIfDone p).state.processes =
        finishTable (s.state.currentTime + 1) p (unitTable p s.state.processes) ∧
      ((s.tick p).completeIfDone p).state.currentTime = s.state.currentTime + 1 ∧
      ((s.tick p).completeIfDone p).notInserted = s.notInserted ∧
      ((s.tick p).completeIfDone p).heap = s.heap ∧
      ((s.tick p).completeIfDone p).currentProcess =
        (if (s.state.processes p).remainingTime = 1 then none else some p) ∧
      ((s.tick p).completeIfDone p).completedProcess =
        if (s.state.processes p).remainingTime = 1 then s.completedProcess + 1
        else s.completedProcess := by
  have hleft := unitTable_remainingTime p s.state.processes
  by_cases hone : (s.state.processes p).remainingTime = 1
  · have hzero : (unitTable p s.state.processes p).remainingTime = 0 := by omega
    rw [completeIfDone, if_pos (show ((s.tick p).state.processes p).remainingTime = 0 from hzero),
      finishTable, if_pos hzero, if_pos hone, if_pos hone]
    exact ⟨rfl, rfl, rfl, rfl, rfl, rfl⟩
  · have hzero : ¬ (unitTable p s.state.processes p).remainingTime = 0 := by omega
    rw [completeIfDone, if_neg (show ¬ ((s.tick p).state.processes p).remainingTime = 0 from hzero),
      finishTable, if_neg hzero, if_neg hone, if_neg hone]
    exact ⟨rfl, rfl, rfl, rfl, hrun, rfl⟩

theorem Views.round (h : Views w s t) (hs : s.round side = some s') :
    ∃ t', Ticks.Tick w.arrivalTime unknownTime t (s.runs side) t' ∧ Views w s' t' := by
  have htime := h.time
  unfold Sjf.round at hs
  unfold runs
  split_ifs at hs ⊢ with hcount
  cases hpick : (s.checkArrivalsHeap side).pick side with
  | none =>
    rw [hpick] at hs
    cases hs
    obtain ⟨hrun, hheap⟩ := pick_eq_none hpick
    obtain ⟨hperm, hscan⟩ := checkArrivalsHeap_spec side s
    rw [hheap] at hperm
    obtain ⟨hnil, htaken⟩ := List.append_eq_nil_iff.mp hperm.symm.eq_nil
    rw [hscan] at hrun ⊢
    rw [hheap]
    have hrun : s.currentProcess = none := hrun
    have hseen := h.toSeen
    rw [hrun, hnil] at hseen
    obtain ⟨t', ht, hseen'⟩ := hseen.idle htaken
    refine ⟨t', ht, ?_, Int.add_nonneg htime Int.one_nonneg, h.started⟩
    show Seen w _ _ (s.currentProcess.toList ++ []) s.completedProcess t'
    rw [hrun]
    exact hseen'
  | some r =>
    obtain ⟨p, s₁⟩ := r
    rw [hpick] at hs
    cases hs
    obtain ⟨hps, hnow, hunqueued, hrun, hcounter, hready⟩ := h.pick hpick
    obtain ⟨hps', hnow', hunqueued', hheap', hrun', hcounter'⟩ := unit_spec s₁ p hrun
    obtain ⟨hleft, hunit⟩ := ranUnit_of_tables hps hnow hnow' hps'
    rw [hleft] at hrun' hcounter'
    have hperm : (((s₁.tick p).completeIfDone p).currentProcess.toList ++ s₁.heap).Perm
        (if (s.state.processes p).remainingTime = 1 then s₁.heap ++ [] else p :: (s₁.heap ++ [])) := by
      rw [hrun', List.append_nil]
      split_ifs <;> exact .refl _
    obtain ⟨t', ht, hseen⟩ := h.toSeen.unit hready (.refl _)
      (fun _ hq => absurd hq List.not_mem_nil) hunit hperm
    refine ⟨t', ht, ?_, ?_, ?_⟩
    · rw [hunqueued', hheap', hcounter', hunqueued, hcounter]
      exact hseen
    · rw [hnow', hnow]
      exact Int.add_nonneg htime Int.one_nonneg
    · intro q hq
      rw [hrun'] at hq
      split_ifs at hq
      · cases hq
      · cases hq
        exact hunit.started htime

theorem ticking (w : Workload n) (side : MergeSide) : Ticking w.arrivalTime unknownTime (round side)
    (fun s => s.state.currentTime) (runs side) (Views w) where
  tick h hs := h.round hs
  ended {s t} h := by
    rw [h.count, Fintype.card_fin, round]
    split_ifs with hcount
    · refine iff_of_false ?_ (Nat.not_le_of_lt hcount)
      split <;> simp
    · exact iff_of_true rfl (Nat.le_of_not_lt hcount)
  runs_ended {s} hs := by
    unfold round at hs
    unfold runs
    split_ifs at hs ⊢
    · split at hs <;> cases hs
    · rfl
  now h := h.now

theorem views_start (w : Workload n) : Views w (start w) (Ticks.init w.burstTime unknownTime) :=
  ⟨seen_start w, le_rfl, nofun⟩

end Sjf

namespace Rr

variable {quantumTime : Int} {w : Workload n} {s s' : Rr n} {t : Ticks (Fin n)} {p : Fin n}

structure Views (w : Workload n) (s : Rr n) (t : Ticks (Fin n)) : Prop
    extends Seen w s.state s.unqueued (s.currentProcess.toList ++ s.queue) s.completeCounter t where
  time : 0 ≤ s.state.currentTime
  started : ∀ p ∈ s.currentProcess, (s.state.processes p).startTime ≠ unknownTime

theorem Views.pick (h : Views w s t) {s₁ : Rr n}
    (hs : s.checkArrivals.pick quantumTime = some (p, s₁)) :
    s₁.state.processes = startTable s.state.currentTime p s.state.processes ∧
      s₁.state.currentTime = s.state.currentTime ∧
      s₁.unqueued = (swept s.state.hasArrived s.unqueued).1 ∧
      s₁.completeCounter = s.completeCounter ∧ s₁.currentProcess = some p ∧
      s.currentProcess.toList ++ s.queue ++ (swept s.state.hasArrived s.unqueued).2 =
        p :: s₁.queue := by
  rw [checkArrivals_eq] at hs
  rcases pick_eq_some hs with ⟨hrun, rfl⟩ | ⟨hrun, queue, hqueue, rfl⟩
  · refine ⟨(startTable_of_started (h.started p hrun)).symm, rfl, rfl, rfl, hrun, ?_⟩
    have hrun : s.currentProcess = some p := hrun
    rw [hrun]
    simp
  · have hrun : s.currentProcess = none := hrun
    have hqueue : s.queue ++ (swept s.state.hasArrived s.unqueued).2 = p :: queue := hqueue
    rw [hrun, Option.toList_none, List.nil_append, hqueue]
    exact ⟨rfl, rfl, rfl, rfl, rfl, rfl⟩

theorem unit_spec (s : Rr n) (p : Fin n) (hrun : s.currentProcess = some p) {s' : Rr n}
    (hs : s' = (s.tick p).checkArrivals.completeOrPreempt p) :
    s'.state.processes = finishTable (s.state.currentTime + 1) p (unitTable p s.state.processes) ∧
      s'.state.currentTime = s.state.currentTime + 1 ∧
      s'.unqueued = (swept (s.tick p).state.hasArrived s.unqueued).1 ∧
      (s'.currentProcess.toList ++ s'.queue).Perm
        (if (s.state.processes p).remainingTime = 1 then
          s.queue ++ (swept (s.tick p).state.hasArrived s.unqueued).2
        else p :: (s.queue ++ (swept (s.tick p).state.hasArrived s.unqueued).2)) ∧
      (∀ q ∈ s'.currentProcess, q = p) ∧
      s'.completeCounter = if (s.state.processes p).remainingTime = 1 then s.completeCounter + 1
        else s.completeCounter := by
  have hleft := unitTable_remainingTime p s.state.processes
  subst hs
  rw [checkArrivals_eq]
  by_cases hone : (s.state.processes p).remainingTime = 1
  · have hzero : (unitTable p s.state.processes p).remainingTime = 0 := by omega
    rw [completeOrPreempt, if_pos (show ((s.tick p).state.processes p).remainingTime = 0 from hzero),
      finishTable, if_pos hzero, if_pos hone, if_pos hone]
    exact ⟨rfl, rfl, rfl, .refl _, nofun, rfl⟩
  · have hzero : ¬ (unitTable p s.state.processes p).remainingTime = 0 := by omega
    rw [completeOrPreempt,
      if_neg (show ¬ ((s.tick p).state.processes p).remainingTime = 0 from hzero), finishTable,
      if_neg hzero, if_neg hone, if_neg hone]
    split_ifs with hquantum
    · exact ⟨rfl, rfl, rfl, List.perm_append_singleton p _, nofun, rfl⟩
    · refine ⟨rfl, rfl, rfl, ?_, fun q hq => ?_, rfl⟩
      · show ((s.currentProcess).toList ++ _).Perm _
        rw [hrun]
        exact .refl _
      · exact (Option.some.inj (hrun.symm.trans hq)).symm

theorem Views.round (h : Views w s t) (hs : s.round quantumTime = some s') :
    ∃ t', Ticks.Tick w.arrivalTime unknownTime t (s.runs quantumTime) t' ∧ Views w s' t' := by
  have htime := h.time
  unfold Rr.round at hs
  unfold runs
  split_ifs at hs ⊢ with hcount
  cases hpick : s.checkArrivals.pick quantumTime with
  | none =>
    rw [hpick] at hs
    cases hs
    obtain ⟨hrun, hqueue⟩ := pick_eq_none hpick
    rw [checkArrivals_eq] at hrun hqueue ⊢
    obtain ⟨hqueue, htaken⟩ := List.append_eq_nil_iff.mp hqueue
    have hseen := h.toSeen
    have hrun : s.currentProcess = none := hrun
    rw [hrun, hqueue] at hseen
    obtain ⟨t', ht, hseen'⟩ := hseen.idle htaken
    refine ⟨t', ht, ?_, Int.add_nonneg htime Int.one_nonneg, h.started⟩
    show Seen w _ _ (s.currentProcess.toList ++ (s.queue ++ _)) s.completeCounter t'
    rw [hrun, hqueue, htaken]
    exact hseen'
  | some r =>
    obtain ⟨p, s₁⟩ := r
    rw [hpick] at hs
    replace hs := (Option.some.inj hs).symm
    obtain ⟨hps, hnow, hunqueued, hcounter, hrun, hready⟩ := h.pick hpick
    obtain ⟨hps', hnow', hunqueued', hready', hcur, hcounter'⟩ := unit_spec s₁ p hrun hs
    obtain ⟨hleft, hunit⟩ := ranUnit_of_tables hps hnow hnow' hps'
    rw [hunqueued] at hunqueued' hready'
    rw [hleft] at hready' hcounter'
    obtain ⟨t', ht, hseen⟩ := h.toSeen.unit (.of_eq hready) (swept_perm _ _)
      (fun q hq => arrivalTime_le_of_hasArrived h.arrivalTime hps hnow rfl rfl
        (mem_swept_taken.mp hq).2) hunit hready'
    refine ⟨t', ht, ?_, ?_, ?_⟩
    · rw [hunqueued', hcounter', hcounter]
      exact hseen
    · rw [hnow', hnow]
      exact Int.add_nonneg htime Int.one_nonneg
    · rintro q hq
      obtain rfl := hcur q hq
      exact hunit.started htime

theorem ticking (w : Workload n) (quantumTime : Int) : Ticking w.arrivalTime unknownTime
    (round quantumTime) (fun s => s.state.currentTime) (runs quantumTime) (Views w) where
  tick h hs := h.round hs
  ended {s t} h := by
    rw [h.count, Fintype.card_fin, round]
    split_ifs with hcount
    · refine iff_of_false ?_ (Nat.not_le_of_lt hcount)
      split <;> simp
    · exact iff_of_true rfl (Nat.le_of_not_lt hcount)
  runs_ended {s} hs := by
    unfold round at hs
    unfold runs
    split_ifs at hs ⊢
    · split at hs <;> cases hs
    · rfl
  now h := h.now

theorem views_start (w : Workload n) : Views w (start w) (Ticks.init w.burstTime unknownTime) :=
  ⟨seen_start w, le_rfl, nofun⟩

end Rr

namespace Stcf

variable {side : MergeSide} {w : Workload n} {s s' : Stcf n} {t : Ticks (Fin n)} {p : Fin n}

def Views (w : Workload n) (s : Stcf n) (t : Ticks (Fin n)) : Prop :=
  Seen w s.state s.notInserted s.heap s.completed t

theorem checkArrivalsHeap_spec (side : MergeSide) (s : Stcf n) :
    (s.checkArrivalsHeap side).heap.Perm (s.heap ++ (swept s.state.hasArrived s.notInserted).2) ∧
      s.checkArrivalsHeap side = { s with
        notInserted := (swept s.state.hasArrived s.notInserted).1
        heap := (s.checkArrivalsHeap side).heap } := by
  unfold checkArrivalsHeap
  rw [sweep_eq]
  exact ⟨(foldl_heapInsert_perm _ _ _).trans List.perm_append_comm, rfl⟩

theorem startProcess_switchGantt (s : Stcf n) (p : Fin n) :
    ((s.startProcess p).switchGantt p).state.processes =
        startTable s.state.currentTime p s.state.processes ∧
      ((s.startProcess p).switchGantt p).state.currentTime = s.state.currentTime ∧
      ((s.startProcess p).switchGantt p).notInserted = s.notInserted ∧
      ((s.startProcess p).switchGantt p).heap = s.heap ∧
      ((s.startProcess p).switchGantt p).completed = s.completed := by
  have hstart : (s.startProcess p).state.processes =
      startTable s.state.currentTime p s.state.processes := by
    unfold startProcess startTable
    split_ifs <;> rfl
  have hkept : (s.startProcess p).state.currentTime = s.state.currentTime ∧
      (s.startProcess p).notInserted = s.notInserted ∧ (s.startProcess p).heap = s.heap ∧
      (s.startProcess p).completed = s.completed := by
    unfold startProcess
    split_ifs <;> exact ⟨rfl, rfl, rfl, rfl⟩
  rw [← hstart]
  unfold switchGantt
  split_ifs <;> exact ⟨rfl, hkept⟩

theorem unit_spec (s : Stcf n) (p : Fin n) {s' : Stcf n}
    (hs : s' = ((s.tick p).checkArrivalsHeap side).completeOrReinsert side p) :
    s'.state.processes = finishTable (s.state.currentTime + 1) p (unitTable p s.state.processes) ∧
      s'.state.currentTime = s.state.currentTime + 1 ∧
      s'.notInserted = (swept (s.tick p).state.hasArrived s.notInserted).1 ∧
      s'.heap.Perm
        (if (s.state.processes p).remainingTime = 1 then
          s.heap ++ (swept (s.tick p).state.hasArrived s.notInserted).2
        else p :: (s.heap ++ (swept (s.tick p).state.hasArrived s.notInserted).2)) ∧
      s'.completed = if (s.state.processes p).remainingTime = 1 then s.completed + 1
        else s.completed := by
  have hleft := unitTable_remainingTime p s.state.processes
  obtain ⟨hperm, hscan⟩ := checkArrivalsHeap_spec side (s.tick p)
  subst hs
  rw [hscan]
  by_cases hone : (s.state.processes p).remainingTime = 1
  · have hzero : (unitTable p s.state.processes p).remainingTime = 0 := by omega
    rw [completeOrReinsert,
      if_pos (show ((s.tick p).state.processes p).remainingTime = 0 from hzero), finishTable,
      if_pos hzero, if_pos hone, if_pos hone]
    exact ⟨rfl, rfl, rfl, hperm, rfl⟩
  · have hzero : ¬ (unitTable p s.state.processes p).remainingTime = 0 := by omega
    rw [completeOrReinsert,
      if_neg (show ¬ ((s.tick p).state.processes p).remainingTime = 0 from hzero), finishTable,
      if_neg hzero, if_neg hone, if_neg hone]
    exact ⟨rfl, rfl, rfl, (MinHeap.heapInsert_perm _ _).trans (hperm.cons p), rfl⟩

theorem Views.round (h : Views w s t) (hs : s.round side = some s') :
    ∃ t', Ticks.Tick w.arrivalTime unknownTime t (s.runs side) t' ∧ Views w s' t' := by
  unfold Stcf.round at hs
  unfold runs
  obtain ⟨hperm, hscan⟩ := checkArrivalsHeap_spec side s
  split_ifs at hs ⊢ with hcount
  cases hpick : (s.checkArrivalsHeap side).pick side with
  | none =>
    rw [hpick] at hs
    cases hs
    rw [MinHeap.heapExtractMin_eq_none.mp hpick] at hperm
    obtain ⟨hnil, htaken⟩ := List.append_eq_nil_iff.mp hperm.symm.eq_nil
    rw [hscan, MinHeap.heapExtractMin_eq_none.mp hpick]
    have hseen : Seen w s.state s.notInserted s.heap s.completed t := h
    rw [hnil] at hseen
    exact hseen.idle htaken
  | some r =>
    obtain ⟨p, rest⟩ := r
    rw [hpick] at hs
    replace hs := (Option.some.inj hs).symm
    have hready := hperm.symm.trans (MinHeap.heapExtractMin_perm hpick)
    rw [hscan] at hs
    obtain ⟨hps, hnow, hnotInserted, hheap, hcounter⟩ := startProcess_switchGantt
      { s with notInserted := (swept s.state.hasArrived s.notInserted).1, heap := rest } p
    obtain ⟨hps', hnow', hnotInserted', hheap', hcounter'⟩ := unit_spec _ p hs
    obtain ⟨hleft, hunit⟩ := ranUnit_of_tables (s := s.state) hps hnow hnow' hps'
    rw [hnotInserted] at hnotInserted' hheap'
    rw [hleft, hheap] at hheap'
    rw [hleft, hcounter] at hcounter'
    obtain ⟨t', ht, hseen⟩ := Seen.unit h hready (swept_perm _ _)
      (fun q hq => arrivalTime_le_of_hasArrived (s := s.state) h.arrivalTime hps hnow rfl rfl
        (mem_swept_taken.mp hq).2) hunit hheap'
    refine ⟨t', ht, ?_⟩
    unfold Views
    rw [hnotInserted', hcounter']
    exact hseen

theorem ticking (w : Workload n) (side : MergeSide) : Ticking w.arrivalTime unknownTime (round side)
    (fun s => s.state.currentTime) (runs side) (Views w) where
  tick h hs := h.round hs
  ended {s t} h := by
    rw [h.count, Fintype.card_fin, round]
    split_ifs with hcount
    · refine iff_of_false ?_ (Nat.not_le_of_lt hcount)
      split <;> simp
    · exact iff_of_true rfl (Nat.le_of_not_lt hcount)
  runs_ended {s} hs := by
    unfold round at hs
    unfold runs
    split_ifs at hs ⊢
    · split at hs <;> cases hs
    · rfl
  now h := h.now

end Stcf

end OsLab.Schedsim
