import OsLab.Foundation.Loop
import OsLab.Schedsim.Arrivals

/-! The tick-stepped `schedule_fcfs`: it serves the processes in the order in which the scans take
them, each in one piece. -/

namespace OsLab.Schedsim

open Sched

variable {n : Nat}

/-- `unqueued` is the array of pointers up to `unqueued_counter`. -/
structure Fcfs (n : Nat) where
  state : SchedulerState n
  unqueued : List (Fin n)
  queue : List (Fin n)
  currentProcess : Option (Fin n)
  ganttEntry : GanttEntry
  completeCounter : Nat

namespace Fcfs

def start (w : Workload n) : Fcfs n :=
  ⟨initialState w, List.finRange n, [], none, .zero, 0⟩

def enqueue (queue : List (Fin n)) (p : Fin n) : List (Fin n) := queue ++ [p]

def checkArrivals (s : Fcfs n) : Fcfs n :=
  let (unqueued, queue) := sweep s.state.hasArrived enqueue s.unqueued s.queue
  { s with unqueued, queue }

def startProcess (s : Fcfs n) (p : Fin n) : Fcfs n :=
  if (s.state.processes p).startTime = unknownTime then
    let t := s.state.currentTime
    { s with
      state := { s.state with
        processes := s.state.processes.modify p fun q => { q with startTime := t } }
      ganttEntry := { s.ganttEntry with name := (s.state.processes p).pid, start := t } }
  else s

/-- The process that runs; `none` if there is none and none in the queue. -/
def pick (s : Fcfs n) : Option (Fin n × Fcfs n) :=
  match s.currentProcess with
  | some p => some (p, s)
  | none =>
    match s.queue with
    | [] => none
    | p :: queue => some (p, { s with queue, currentProcess := some p }.startProcess p)

def tick (s : Fcfs n) (p : Fin n) : Fcfs n := { s with state := s.state.tick p }

def completeIfDone (s : Fcfs n) (p : Fin n) : Fcfs n :=
  if (s.state.processes p).remainingTime = 0 then
    { s with
      state := (s.state.finish p).closeEntry s.ganttEntry
      ganttEntry := .zero
      currentProcess := none
      completeCounter := s.completeCounter + 1 }
  else s

def idleTick (s : Fcfs n) : Fcfs n := { s with state := s.state.idleTick }

def round (s : Fcfs n) : Option (Fcfs n) :=
  if s.completeCounter < n then
    match s.checkArrivals.pick with
    | none => some s.checkArrivals.idleTick
    | some (p, s) => some ((s.tick p).completeIfDone p)
  else none

end Fcfs

def scheduleFcfs (w : Workload n) (fuel : Nat) : Option (SchedulerState n) :=
  (Loop.run Fcfs.round fuel (Fcfs.start w)).map Fcfs.state

structure ServedInOrder (w : Workload n) (start : Fin n → Int) (l : List (Fin n)) : Prop where
  first : ∀ p ∈ l.head?, start p = w.arrivalTime p
  next : l.IsChain fun p q => start q = max (start p + w.burstTime p) (w.arrivalTime q)

section ServedInOrder

variable {w : Workload n} {start start' : Fin n → Int} {l : List (Fin n)} {q : Fin n}

theorem servedInOrder_concat : ServedInOrder w start (l ++ [q]) ↔ ServedInOrder w start l ∧
    (l = [] → start q = w.arrivalTime q) ∧
    ∀ p ∈ l.getLast?, start q = max (start p + w.burstTime p) (w.arrivalTime q) := by
  constructor
  · intro h
    have hnext := List.isChain_append.mp h.next
    refine ⟨⟨fun p hp => h.first p ?_, hnext.1⟩, ?_, fun p hp => hnext.2.2 p hp q rfl⟩
    · rw [List.head?_append, hp]
      rfl
    · rintro rfl
      exact h.first q rfl
  · rintro ⟨h, hfirst, hlast⟩
    refine ⟨fun p hp => ?_, List.isChain_append.mpr ⟨h.next, .singleton q, fun p hp q' hq => ?_⟩⟩
    · cases l with
      | nil =>
        obtain rfl := Option.some.inj hp
        exact hfirst rfl
      | cons a l => exact h.first p hp
    · obtain rfl := Option.some.inj hq
      exact hlast p hp

theorem ServedInOrder.congr (h : ServedInOrder w start l) (heq : ∀ p ∈ l, start' p = start p) :
    ServedInOrder w start' l := by
  refine ⟨fun p hp => ?_, h.next.imp_of_mem_imp fun p q hp hq hnext => ?_⟩
  · rw [heq p (List.mem_of_mem_head? hp)]
    exact h.first p hp
  · rw [heq p hp, heq q hq]
    exact hnext

theorem ServedInOrder.unique (h : ServedInOrder w start l) (h' : ServedInOrder w start' l) :
    ∀ p ∈ l, start p = start' p := by
  induction l using List.reverseRecOn with
  | nil => exact fun p hp => absurd hp List.not_mem_nil
  | append_singleton l q ih =>
    obtain ⟨hl, hfirst, hlast⟩ := servedInOrder_concat.mp h
    obtain ⟨hl', hfirst', hlast'⟩ := servedInOrder_concat.mp h'
    have hsame := ih hl hl'
    refine List.forall_mem_append.mpr ⟨hsame, List.forall_mem_singleton.mpr ?_⟩
    cases hlast? : l.getLast? with
    | none =>
      have hnil := List.getLast?_eq_none_iff.mp hlast?
      rw [hfirst hnil, hfirst' hnil]
    | some p =>
      rw [hlast p hlast?, hlast' p hlast?, hsame p (List.mem_of_getLast? hlast?)]

theorem ServedInOrder.pairwise (h : ServedInOrder w start l) (hburst : ∀ p, 1 ≤ w.burstTime p) :
    l.Pairwise fun p q => start p < start q := by
  have : IsTrans (Fin n) fun p q => start p < start q := ⟨fun _ _ _ => lt_trans⟩
  refine List.isChain_iff_pairwise.mp (h.next.imp fun p q hnext => ?_)
  have hpos := hburst p
  omega

end ServedInOrder

namespace Fcfs

variable {w : Workload n} {s s' : Fcfs n} {done : List (Fin n)} {p : Fin n} {m t : Nat}

abbrev startTimes (s : Fcfs n) (p : Fin n) : Int := (s.state.processes p).startTime

/-- After `m` scans: `done` have been served, the current process is being served, and the queue
holds the others that were taken. -/
structure Serving (w : Workload n) (m : Nat) (done : List (Fin n)) (s : Fcfs n) : Prop where
  line : done ++ s.currentProcess.toList ++ s.queue = takenBefore w m
  unqueued : s.unqueued = unqueuedAt w m
  count : s.completeCounter = done.length
  arrivalTime : ∀ p, (s.state.processes p).arrivalTime = w.arrivalTime p
  served : ServedInOrder w s.startTimes (done ++ s.currentProcess.toList)
  finished : ∀ p ∈ done, (s.state.processes p).finishTime = s.startTimes p + w.burstTime p ∧
    (s.state.processes p).finishTime ≤ s.state.currentTime
  running : ∀ p ∈ s.currentProcess, 0 < (s.state.processes p).remainingTime ∧
    (s.state.processes p).remainingTime = s.startTimes p + w.burstTime p - s.state.currentTime
  waiting : ∀ p ∉ done, p ∉ s.currentProcess →
    (s.state.processes p).remainingTime = w.burstTime p ∧ s.startTimes p = unknownTime

/-- At the top of the loop nobody waits for the first process to be dispatched after an idle tick. -/
structure AtTop (w : Workload n) (t : Nat) (done : List (Fin n)) (s : Fcfs n) : Prop
    extends Serving w t done s where
  time : s.state.currentTime = t
  backToBack : s.currentProcess = none → s.queue ≠ [] →
    ∃ p ∈ done.getLast?, s.startTimes p + w.burstTime p = t

theorem foldl_enqueue (queue taken : List (Fin n)) : taken.foldl enqueue queue = queue ++ taken := by
  induction taken generalizing queue with
  | nil => rw [List.foldl_nil, List.append_nil]
  | cons p taken ih => rw [List.foldl_cons, ih, enqueue, List.append_assoc, List.singleton_append]

theorem Serving.checkArrivals (h : Serving w t done s) (htime : s.state.currentTime = t) :
    s.checkArrivals = { s with
      unqueued := unqueuedAt w (t + 1)
      queue := s.queue ++ takenAt w t } := by
  have harrived : s.state.hasArrived = arrivedAt w t := by
    funext p
    rw [SchedulerState.hasArrived, arrivedAt, h.arrivalTime, htime]
  unfold Fcfs.checkArrivals
  rw [harrived, h.unqueued, sweep_eq, foldl_enqueue]
  rfl

theorem Serving.scanned (h : Serving w t done s) (htime : s.state.currentTime = t) :
    Serving w (t + 1) done s.checkArrivals := by
  rw [h.checkArrivals htime]
  exact { h with
    line := by rw [takenBefore, ← h.line, List.append_assoc (done ++ _)]
    unqueued := rfl }

theorem Serving.nodup (h : Serving w m done s) :
    (done ++ s.currentProcess.toList ++ s.queue).Nodup := h.line ▸ takenBefore_nodup w m

theorem Serving.startProcess {queue : List (Fin n)} (h : Serving w m done s)
    (hburst : 1 ≤ w.burstTime p) (hrun : s.currentProcess = none) (hqueue : s.queue = p :: queue)
    (hfirst : done = [] → s.state.currentTime = w.arrivalTime p)
    (hnext : ∀ q ∈ done.getLast?,
      s.state.currentTime = max (s.startTimes q + w.burstTime q) (w.arrivalTime p)) :
    Serving w m done ({ s with queue, currentProcess := some p }.startProcess p) := by
  have hnodup := h.nodup
  rw [hrun, hqueue, Option.toList_none, List.append_nil] at hnodup
  have hnew : p ∉ done := fun hmem =>
    (List.nodup_append.mp hnodup).2.2 p hmem p List.mem_cons_self rfl
  obtain ⟨hrem, hstart⟩ := h.waiting p hnew (by simp [hrun])
  have hother : ∀ q ≠ p, s.state.processes.modify p
      (fun r => { r with startTime := s.state.currentTime }) q = s.state.processes q :=
    fun q hq => Table.modify_of_ne hq ..
  rw [Fcfs.startProcess, if_pos hstart]
  refine ⟨?_, h.unqueued, h.count, fun q => ?_, ?_, fun q hq => ?_, ?_, fun q hq hcur => ?_⟩
  · rw [← h.line, hrun, hqueue, Option.toList_none, List.append_nil]
    simp
  · exact (Table.modify_field Process.arrivalTime _ _ _ rfl q).trans (h.arrivalTime q)
  · have hserved := h.served
    rw [hrun, Option.toList_none, List.append_nil] at hserved
    have hsame : ∀ q ∈ done, _ = s.startTimes q := fun q hq =>
      congrArg Process.startTime (hother q (ne_of_mem_of_not_mem hq hnew))
    refine servedInOrder_concat.mpr ⟨hserved.congr hsame, fun hnil => ?_, fun q hq => ?_⟩
    · exact (congrArg Process.startTime (Table.modify_self ..)).trans (hfirst hnil)
    · refine ((congrArg Process.startTime (Table.modify_self ..)).trans (hnext q hq)).trans ?_
      exact congrArg (fun start => max (start + w.burstTime q) (w.arrivalTime p))
        (hsame q (List.mem_of_getLast? hq)).symm
  · simp only [startTimes, hother q (ne_of_mem_of_not_mem hq hnew)]
    exact h.finished q hq
  · rintro q hq
    obtain rfl := Option.some.inj hq
    simp only [startTimes, Table.modify_self, hrem]
    omega
  · have hne : q ≠ p := fun heq => hcur (heq ▸ rfl)
    simp only [startTimes, hother q hne]
    exact h.waiting q hq (by simp [hrun])

theorem pick_eq_some (hs : s.pick = some (p, s')) : s.currentProcess = some p ∧ s' = s ∨
    s.currentProcess = none ∧ ∃ queue, s.queue = p :: queue ∧
      s' = { s with queue, currentProcess := some p }.startProcess p := by
  unfold pick at hs
  split at hs
  · rename_i hrun
    cases hs
    exact .inl ⟨hrun, rfl⟩
  · rename_i hrun
    split at hs
    · cases hs
    · rename_i hqueue
      cases hs
      exact .inr ⟨hrun, _, hqueue, rfl⟩

theorem pick_eq_none (hs : s.pick = none) : s.currentProcess = none ∧ s.queue = [] := by
  unfold pick at hs
  split at hs
  · cases hs
  · rename_i hrun
    split at hs
    · rename_i hqueue
      exact ⟨hrun, hqueue⟩
    · cases hs

theorem startProcess_kept (s : Fcfs n) (p : Fin n) :
    (s.startProcess p).currentProcess = s.currentProcess ∧
      (s.startProcess p).state.currentTime = s.state.currentTime := by
  unfold startProcess
  split_ifs <;> exact ⟨rfl, rfl⟩

theorem completeIfDone_of_last (h : (s.state.processes p).remainingTime = 1) :
    (s.tick p).completeIfDone p = { s with
      state := ((s.state.tick p).finish p).closeEntry s.ganttEntry
      ganttEntry := .zero
      currentProcess := none
      completeCounter := s.completeCounter + 1 } :=
  if_pos ((SchedulerState.tick_remainingTime ..).trans (by omega))

theorem completeIfDone_of_more (h : (s.state.processes p).remainingTime ≠ 1) :
    (s.tick p).completeIfDone p = s.tick p :=
  if_neg fun hzero => h (by rw [tick, SchedulerState.tick_remainingTime] at hzero; omega)

theorem Serving.goesOn (h : Serving w m done s) (hrun : s.currentProcess = some p)
    (hrem : (s.state.processes p).remainingTime ≠ 1) : Serving w m done (s.tick p) := by
  have hstart := s.state.tick_field Process.startTime (fun _ _ => rfl) p
  have hfinish := s.state.tick_field Process.finishTime (fun _ _ => rfl) p
  refine ⟨h.line, h.unqueued, h.count, fun q => ?_, h.served.congr fun q _ => hstart q,
    fun q hq => ?_, fun q hq => ?_, fun q hq hcur => ?_⟩
  · exact (s.state.tick_field Process.arrivalTime (fun _ _ => rfl) p q).trans (h.arrivalTime q)
  · rw [tick, hfinish, startTimes, hstart]
    exact ⟨(h.finished q hq).1, (h.finished q hq).2.trans (Int.le_add_one le_rfl)⟩
  · obtain ⟨hpos, heq⟩ := h.running q hq
    obtain rfl := Option.some.inj (hrun.symm.trans hq)
    rw [tick, SchedulerState.tick_remainingTime, startTimes, hstart]
    show 0 < (s.state.processes p).remainingTime - 1 ∧ (s.state.processes p).remainingTime - 1 =
      s.startTimes p + w.burstTime p - (s.state.currentTime + 1)
    omega
  · have hne : q ≠ p := fun heq => hcur (heq ▸ hrun)
    rw [tick, SchedulerState.tick_of_ne hne, startTimes, SchedulerState.tick_of_ne hne]
    exact h.waiting q hq hcur

theorem Serving.notMem_done (h : Serving w m done s) (hrun : s.currentProcess = some p) :
    p ∉ done := by
  have hnodup := h.nodup
  rw [hrun, Option.toList_some, List.append_assoc] at hnodup
  exact fun hmem => (List.nodup_append.mp hnodup).2.2 p hmem p List.mem_cons_self rfl

theorem Serving.completes (h : Serving w m done s) (hrun : s.currentProcess = some p)
    (hrem : (s.state.processes p).remainingTime = 1) :
    Serving w m (done ++ [p]) ((s.tick p).completeIfDone p) ∧
      ((s.tick p).completeIfDone p).startTimes p + w.burstTime p = s.state.currentTime + 1 := by
  have hnew := h.notMem_done hrun
  have hstop : s.startTimes p + w.burstTime p = s.state.currentTime + 1 := by
    have heq := (h.running p hrun).2
    omega
  have hstart : ∀ q, (((s.state.tick p).finish p).processes q).startTime = s.startTimes q :=
    s.state.finish_tick_field Process.startTime (fun _ _ => rfl) (fun _ _ => rfl) p
  have hfinish : (((s.state.tick p).finish p).processes p).finishTime = s.state.currentTime + 1 :=
    (s.state.tick p).finish_finishTime p
  rw [completeIfDone_of_last hrem]
  refine ⟨⟨?_, h.unqueued, ?_, fun q => ?_, ?_, fun q hq => ?_, nofun, fun q hq _ => ?_⟩, ?_⟩
  · rw [← h.line, hrun]
    simp
  · rw [List.length_append]
    exact congrArg (· + 1) h.count
  · exact (s.state.finish_tick_field Process.arrivalTime (fun _ _ => rfl) (fun _ _ => rfl) p q).trans
      (h.arrivalTime q)
  · have hserved := h.served
    rw [hrun, Option.toList_some] at hserved
    rw [Option.toList_none, List.append_nil]
    exact hserved.congr fun q _ => hstart q
  · show (((s.state.tick p).finish p).processes q).finishTime =
      (((s.state.tick p).finish p).processes q).startTime + w.burstTime q ∧
      (((s.state.tick p).finish p).processes q).finishTime ≤ s.state.currentTime + 1
    rw [hstart]
    rcases List.mem_append.mp hq with hq | hq
    · rw [SchedulerState.finish_tick_of_ne (ne_of_mem_of_not_mem hq hnew)]
      exact ⟨(h.finished q hq).1, (h.finished q hq).2.trans (Int.le_add_one le_rfl)⟩
    · obtain rfl := List.mem_singleton.mp hq
      exact ⟨hfinish.trans hstop.symm, hfinish.le⟩
  · obtain ⟨hq, hne⟩ := not_or.mp (mt List.mem_append.mpr hq)
    have hne : q ≠ p := fun heq => hne (heq ▸ List.mem_singleton_self _)
    have hwaiting := h.waiting q hq fun hcur => hne (Option.some.inj (hrun.symm.trans hcur)).symm
    rw [startTimes, ← SchedulerState.finish_tick_of_ne hne s.state] at hwaiting
    exact hwaiting
  · exact (congrArg (· + w.burstTime p) (hstart p)).trans hstop

theorem AtTop.next_time {queue : List (Fin n)} (h : AtTop w t done s) (hw : w.Nonneg)
    (hrun : s.currentProcess = none) (hqueue : s.checkArrivals.queue = p :: queue) :
    (done = [] → (t : Int) = w.arrivalTime p) ∧
      ∀ q ∈ done.getLast?, (t : Int) = max (s.startTimes q + w.burstTime q) (w.arrivalTime p) := by
  have hline := h.line
  rw [hrun, Option.toList_none, List.append_nil] at hline
  rw [h.toServing.checkArrivals h.time] at hqueue
  replace hqueue : s.queue ++ takenAt w t = p :: queue := hqueue
  cases hwait : s.queue with
  | nil =>
    rw [hwait, List.nil_append] at hqueue
    have harrival : w.arrivalTime p = t :=
      (mem_takenAt hw).mp (by rw [hqueue]; exact List.mem_cons_self)
    refine ⟨fun _ => harrival.symm, fun q hq => ?_⟩
    obtain ⟨heq, hle⟩ := h.finished q (List.mem_of_getLast? hq)
    rw [h.time] at hle
    omega
  | cons a waiting =>
    rw [hwait, List.cons_append] at hqueue
    obtain rfl := (List.cons.inj hqueue).1
    have harrival : w.arrivalTime a < t := by
      refine (mem_takenBefore hw).mp ?_
      rw [← hline, hwait]
      exact List.mem_append_right _ List.mem_cons_self
    obtain ⟨q, hlast, hstop⟩ := h.backToBack hrun (by rw [hwait]; exact List.cons_ne_nil _ _)
    refine ⟨fun hnil => ?_, fun q' hq' => ?_⟩
    · rw [hnil] at hlast
      cases hlast
    · obtain rfl := Option.some.inj (hlast.symm.trans hq')
      omega

theorem AtTop.round_cases (h : AtTop w t done s) (hw : w.Nonneg)
    (hburst : ∀ p, 1 ≤ w.burstTime p) (hs : s.round = some s') :
    s.checkArrivals.currentProcess = none ∧ s.checkArrivals.queue = [] ∧
        s' = s.checkArrivals.idleTick ∨
      ∃ s1 p, Serving w (t + 1) done s1 ∧ s1.currentProcess = some p ∧
        s1.state.currentTime = t ∧ s' = (s1.tick p).completeIfDone p := by
  unfold Fcfs.round at hs
  split_ifs at hs
  have hscanned := h.toServing.scanned h.time
  have hscan := h.toServing.checkArrivals h.time
  have htime : s.checkArrivals.state.currentTime = t := by rw [hscan, h.time]
  split at hs
  · rename_i hpick
    cases hs
    exact .inl ⟨(pick_eq_none hpick).1, (pick_eq_none hpick).2, rfl⟩
  · rename_i p s1 hpick
    cases hs
    right
    rcases pick_eq_some hpick with ⟨hrun, rfl⟩ | ⟨hrun, queue, hqueue, rfl⟩
    · exact ⟨_, p, hscanned, hrun, htime, rfl⟩
    · obtain ⟨hcur, hkept⟩ :=
        startProcess_kept { s.checkArrivals with queue, currentProcess := some p } p
      have hidle : s.currentProcess = none := by rwa [hscan] at hrun
      obtain ⟨hfirst, hnext⟩ := h.next_time hw hidle hqueue
      have hstarts : s.checkArrivals.startTimes = s.startTimes := by rw [hscan]
      rw [← htime] at hfirst hnext
      rw [← hstarts] at hnext
      exact ⟨_, p, hscanned.startProcess (hburst p) hrun hqueue hfirst hnext, hcur,
        hkept.trans htime, rfl⟩

theorem AtTop.round (h : AtTop w t done s) (hw : w.Nonneg) (hburst : ∀ p, 1 ≤ w.burstTime p)
    (hs : s.round = some s') : ∃ done', AtTop w (t + 1) done' s' := by
  rcases h.round_cases hw hburst hs with ⟨hrun, hqueue, rfl⟩ | ⟨s1, p, hserving, hrun, hnow, rfl⟩
  · have hscanned := h.toServing.scanned h.time
    have htime : s.checkArrivals.state.currentTime = t := by
      rw [h.toServing.checkArrivals h.time, h.time]
    refine ⟨done, ⟨{ hscanned with
      finished := fun q hq => ?_
      running := fun q hq => ?_ }, ?_, fun _ hne => absurd hqueue hne⟩⟩
    · exact ⟨(hscanned.finished q hq).1, (hscanned.finished q hq).2.trans (Int.le_add_one le_rfl)⟩
    · exact absurd (hrun.symm.trans hq) (Option.some_ne_none q).symm
    · rw [Nat.cast_succ, ← htime]
      rfl
  · by_cases hrem : (s1.state.processes p).remainingTime = 1
    · obtain ⟨hserved, hstop⟩ := hserving.completes hrun hrem
      refine ⟨done ++ [p], ⟨hserved, ?_, fun _ _ => ⟨p, by simp, ?_⟩⟩⟩
      · rw [completeIfDone_of_last hrem, Nat.cast_succ, ← hnow]
        rfl
      · rw [hstop, hnow, Nat.cast_succ]
    · rw [completeIfDone_of_more hrem]
      refine ⟨done, ⟨hserving.goesOn hrun hrem, ?_, fun hnone => ?_⟩⟩
      · rw [Nat.cast_succ, ← hnow]
        rfl
      · exact absurd (hrun.symm.trans hnone) (Option.some_ne_none p)

theorem atTop_start (w : Workload n) : AtTop w 0 [] (start w) where
  line := rfl
  unqueued := rfl
  count := rfl
  arrivalTime _ := rfl
  served := ⟨nofun, .nil⟩
  finished := nofun
  running := nofun
  waiting _ _ _ := ⟨rfl, rfl⟩
  time := rfl
  backToBack _ hne := absurd rfl hne

theorem reaches_atTop (hw : w.Nonneg) (hburst : ∀ p, 1 ≤ w.burstTime p)
    (h : Loop.Reaches round (start w) s) : ∃ t done, AtTop w t done s :=
  h.invariant (fun s => ∃ t done, AtTop w t done s)
    (fun _ _ hs ⟨t, _, htop⟩ => ⟨t + 1, htop.round hw hburst hs⟩) ⟨0, [], atTop_start w⟩

theorem AtTop.of_ended (h : AtTop w t done s) (hend : s.round = none) :
    done = takenBefore w t ∧ unqueuedAt w t = [] := by
  have hcount : n ≤ done.length := by
    unfold Fcfs.round at hend
    split at hend
    · split at hend <;> cases hend
    · rename_i hlt
      exact h.count ▸ Nat.le_of_not_lt hlt
  have hline := h.line
  have hlen := congrArg List.length hline
  rw [List.length_append, List.length_append] at hlen
  obtain ⟨hperm, hnil⟩ := takenBefore_perm_of_length (w := w) (t := t) (by omega)
  have htotal := hperm.length_eq
  rw [List.length_finRange] at htotal
  have hqueue : s.queue = [] := List.eq_nil_of_length_eq_zero (by omega)
  have hrun : s.currentProcess.toList = [] := List.eq_nil_of_length_eq_zero (by omega)
  rw [hqueue, hrun, List.append_nil, List.append_nil] at hline
  exact ⟨hline, hnil⟩

end Fcfs

theorem scheduleFcfs_served {w : Workload n} (hw : w.Nonneg) (hburst : ∀ p, 1 ≤ w.burstTime p)
    {fuel : Nat} {s : SchedulerState n} (hrun : scheduleFcfs w fuel = some s) :
    ∃ t, unqueuedAt w t = [] ∧
      ServedInOrder w (fun p => (s.processes p).startTime) (takenBefore w t) ∧
      ∀ p, (s.processes p).finishTime = (s.processes p).startTime + w.burstTime p := by
  obtain ⟨f, hloop, rfl⟩ := Option.map_eq_some_iff.mp hrun
  obtain ⟨hreach, hend⟩ := Loop.run_reaches hloop
  obtain ⟨t, done, htop⟩ := Fcfs.reaches_atTop hw hburst hreach
  obtain ⟨rfl, hall⟩ := htop.of_ended hend
  have hperm := takenBefore_perm w t
  rw [hall, List.append_nil] at hperm
  have hserved := htop.served
  have hline := htop.line
  rw [List.append_assoc] at hline
  have hidle := List.append_eq_nil_iff.mp (List.append_right_eq_self.mp hline)
  rw [hidle.1, List.append_nil] at hserved
  refine ⟨t, hall, hserved, fun p => (htop.finished p ?_).1⟩
  exact hperm.mem_iff.mpr (List.mem_finRange p)

end OsLab.Schedsim
