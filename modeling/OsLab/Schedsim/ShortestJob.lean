import OsLab.Foundation.Turns
import OsLab.Schedsim.Algorithm

/-! The chart of the tick-stepped `schedule_sjf`: every process is served in one piece, and which one
comes next is up to the heap. -/

namespace OsLab.Schedsim

open Sched MinHeap

variable {n : Nat}

/-- `p` starts as soon as those of `earlier` are done and one of the others has arrived, and comes
first in the order of the heap among the others that have. -/
structure Choice (side : MergeSide) (w : Workload n) (start : Fin n → Int) (earlier : List (Fin n))
    (p : Fin n) : Prop where
  nonneg : 0 ≤ start p
  arrival_le : w.arrivalTime p ≤ start p
  stop_le : ∀ r ∈ earlier, start r + w.burstTime r ≤ start p
  first : ∀ r ∉ earlier, w.arrivalTime r ≤ start p → (initialState w).inOrder side p r = true
  prompt : ∀ t, 0 ≤ t → t < start p → (∀ r ∈ earlier, start r + w.burstTime r ≤ t) →
    ∀ r ∉ earlier, t < w.arrivalTime r

theorem Choice.congr {side : MergeSide} {w : Workload n} {start start' : Fin n → Int}
    {earlier : List (Fin n)} {p : Fin n} (h : Choice side w start earlier p)
    (hp : start' p = start p) (hearlier : ∀ r ∈ earlier, start' r = start r) :
    Choice side w start' earlier p where
  nonneg := hp ▸ h.nonneg
  arrival_le := hp ▸ h.arrival_le
  stop_le r hr := by
    rw [hp, hearlier r hr]
    exact h.stop_le r hr
  first := hp ▸ h.first
  prompt t ht hlt hall :=
    h.prompt t ht (hp ▸ hlt) fun r hr => (hearlier r hr) ▸ hall r hr

namespace Sjf

variable {side : MergeSide} {w : Workload n} {s s' : Sjf n} {done : List (Fin n)} {p : Fin n}

abbrev startTimes (s : Sjf n) (p : Fin n) : Int := (s.state.processes p).startTime

/-- The entry that `schedule_sjf` makes for a process. -/
def chartEntry (w : Workload n) (start : Fin n → Int) (p : Fin n) : GanttEntry :=
  ⟨(w.processes p).pid, start p, start p + w.burstTime p⟩

/-- `done` have been served one after the other, and the current process is being served. -/
structure Serving (side : MergeSide) (w : Workload n) (done : List (Fin n)) (s : Sjf n) : Prop where
  record : ∀ p, (s.state.processes p).pid = (w.processes p).pid ∧
    (s.state.processes p).arrivalTime = w.arrivalTime p ∧
    (s.state.processes p).burstTime = w.burstTime p
  heap : IsHeap ((initialState w).inOrder side) s.heap
  placed : (done ++ s.currentProcess.toList ++ s.heap ++ s.notInserted).Perm (List.finRange n)
  arrived : ∀ p ∈ s.heap, w.arrivalTime p ≤ s.state.currentTime
  count : s.completedProcess = done.length
  time : 0 ≤ s.state.currentTime
  choices : EachTurn (Choice side w s.startTimes) (done ++ s.currentProcess.toList)
  gantt : s.state.gantt = done.map (chartEntry w s.startTimes)
  finished : ∀ p ∈ done, (s.state.processes p).finishTime = s.startTimes p + w.burstTime p ∧
    (s.state.processes p).finishTime ≤ s.state.currentTime
  current : ∀ p ∈ s.currentProcess, s.ganttEntry.name = (w.processes p).pid ∧
    s.ganttEntry.start = s.startTimes p ∧ 1 ≤ (s.state.processes p).remainingTime ∧
    (s.state.processes p).remainingTime = s.startTimes p + w.burstTime p - s.state.currentTime
  prompt : s.currentProcess = none → ∀ t, 0 ≤ t → t < s.state.currentTime →
    (∀ r ∈ done, s.startTimes r + w.burstTime r ≤ t) → ∀ r ∉ done, t < w.arrivalTime r
  waiting : ∀ p ∈ s.heap ++ s.notInserted,
    (s.state.processes p).remainingTime = w.burstTime p ∧ s.startTimes p = unknownTime

theorem Serving.inOrder_eq (h : Serving side w done s) :
    s.state.inOrder side = (initialState w).inOrder side ∧
      s.state.isLess side = (initialState w).isLess side := by
  constructor
  · funext p q
    cases side <;> simp only [SchedulerState.inOrder, h.record] <;> rfl
  · funext p q
    cases side <;> simp only [SchedulerState.isLess, h.record] <;> rfl

theorem Serving.scanned (h : Serving side w done s) :
    Serving side w done (s.checkArrivalsHeap side) ∧
      ∀ p ∈ (s.checkArrivalsHeap side).notInserted, s.state.currentTime < w.arrivalTime p := by
  obtain ⟨hperm, hscan⟩ := checkArrivalsHeap_spec side s
  have hheap : IsHeap ((initialState w).inOrder side) (s.checkArrivalsHeap side).heap := by
    unfold checkArrivalsHeap
    rw [sweep_eq, h.inOrder_eq.1]
    exact foldl_heapInsert_isHeap (keyOrder side _) _ h.heap
  rw [hscan]
  have harrived : ∀ p, s.state.hasArrived p = true ↔ w.arrivalTime p ≤ s.state.currentTime := by
    intro p
    rw [SchedulerState.hasArrived, decide_eq_true_eq, (h.record p).2.1]
  have hmoved : ((s.checkArrivalsHeap side).heap ++ (swept s.state.hasArrived s.notInserted).1).Perm
      (s.heap ++ s.notInserted) := by
    refine (hperm.append_right _).trans ?_
    rw [List.append_assoc]
    exact (swept_perm _ _).append_left s.heap
  constructor
  · refine { h with
      heap := hheap, placed := ?_, arrived := fun p hp => ?_, current := h.current
      waiting := fun p hp => h.waiting p (hmoved.mem_iff.mp hp) }
    · refine List.Perm.trans ?_ h.placed
      simp only [List.append_assoc]
      exact (hmoved.append_left _).append_left _
    · rcases List.mem_append.mp (hperm.mem_iff.mp hp) with hp | hp
      · exact h.arrived p hp
      · exact (harrived p).mp (mem_swept_taken.mp hp).2
  · intro p hp
    have hlate := (mem_swept_left.mp hp).2
    rw [← Bool.not_eq_true, harrived, not_le] at hlate
    exact hlate

theorem startProcess_field {γ : Type*} (field : Process → γ)
    (hfield : ∀ (r : Process) (t : Int), field { r with startTime := t } = field r) (s : Sjf n)
    (p r : Fin n) : field ((s.startProcess p).state.processes r) = field (s.state.processes r) := by
  unfold startProcess
  dsimp only
  split_ifs
  · exact Table.modify_field field s.state.processes p _ (hfield _ _) r
  · rfl

theorem startProcess_of_ne {r : Fin n} (hr : r ≠ p) :
    (s.startProcess p).state.processes r = s.state.processes r := by
  unfold startProcess
  dsimp only
  split_ifs
  · exact Table.modify_of_ne hr ..
  · rfl

theorem startProcess_startTimes (h : s.startTimes p = unknownTime) :
    (s.startProcess p).startTimes p = s.state.currentTime := by
  unfold startTimes startProcess
  dsimp only
  rw [if_pos h, Table.modify_self]

theorem Serving.startProcess (h : Serving side w done s) (hburst : 1 ≤ w.burstTime p)
    (hlate : ∀ r ∈ s.notInserted, s.state.currentTime < w.arrivalTime r)
    (hrun : s.currentProcess = none) {heap : List (Fin n)}
    (hheap : heapExtractMin (s.state.isLess side) s.heap = some (p, heap)) :
    Serving side w done ({ s with heap, currentProcess := some p }.startProcess p) := by
  rw [h.inOrder_eq.2] at hheap
  obtain ⟨hrest, hperm, hroot⟩ := h.heap.heapExtractMin (keyOrder side (initialState w)) hheap
  have hmem : p ∈ s.heap := hperm.mem_iff.mpr List.mem_cons_self
  have hplaced := h.placed
  rw [hrun, Option.toList_none, List.append_nil] at hplaced
  have hplaced' : (done ++ [p] ++ heap ++ s.notInserted).Perm (List.finRange n) := by
    refine List.Perm.trans (List.Perm.append_right _ ?_) hplaced
    rw [List.append_assoc, List.singleton_append]
    exact (hperm.symm).append_left done
  have hnodup := hplaced'.nodup_iff.mpr (List.nodup_finRange n)
  rw [List.append_assoc, List.append_assoc, List.singleton_append] at hnodup
  have hnew : p ∉ done := fun hp => (List.nodup_append.mp hnodup).2.2 p hp p List.mem_cons_self rfl
  have hgone : p ∉ heap ++ s.notInserted := (List.nodup_cons.mp (List.nodup_append.mp hnodup).2.1).1
  obtain ⟨hrem, hunknown⟩ := h.waiting p (List.mem_append_left _ hmem)
  set s₁ : Sjf n := { s with heap, currentProcess := some p } with hs₁
  have hother : ∀ r ≠ p, (s₁.startProcess p).state.processes r = s.state.processes r :=
    fun r hr => startProcess_of_ne hr
  have hself : (s₁.startProcess p).startTimes p = s.state.currentTime :=
    startProcess_startTimes hunknown
  have hsame : ∀ r ∈ done, (s₁.startProcess p).startTimes r = s.startTimes r := fun r hr =>
    congrArg Process.startTime (hother r (ne_of_mem_of_not_mem hr hnew))
  refine ⟨fun r => ⟨?_, ?_, ?_⟩, hrest, hplaced', fun r hr => ?_, h.count, h.time, ?_, ?_,
    fun r hr => ?_, fun r hr => ?_, nofun, fun r hr => ?_⟩
  · exact (startProcess_field Process.pid (fun _ _ => rfl) s₁ p r).trans (h.record r).1
  · exact (startProcess_field Process.arrivalTime (fun _ _ => rfl) s₁ p r).trans (h.record r).2.1
  · exact (startProcess_field Process.burstTime (fun _ _ => rfl) s₁ p r).trans (h.record r).2.2
  · exact h.arrived r (hperm.mem_iff.mpr (List.mem_cons_of_mem p hr))
  · have hchoices := h.choices
    rw [hrun, Option.toList_none, List.append_nil] at hchoices
    refine eachTurn_concat.mpr ⟨fun pre r post hsplit => ?_, ?_, ?_, fun r hr => ?_,
      fun r hr harr => ?_, fun t ht hlt hall => ?_⟩
    · have hin : ∀ q ∈ pre ++ [r], q ∈ done := fun q hq => by
        rw [hsplit, ← List.singleton_append, ← List.append_assoc]
        exact List.mem_append_left _ hq
      exact (hchoices pre r post hsplit).congr (hsame r (hin r (by simp)))
        fun q hq => hsame q (hin q (List.mem_append_left _ hq))
    · exact hself ▸ h.time
    · rw [hself]
      exact h.arrived p hmem
    · rw [hself, hsame r hr, ← (h.finished r hr).1]
      exact (h.finished r hr).2
    · rw [hself] at harr
      have hall := hplaced.mem_iff.mpr (List.mem_finRange r)
      rcases List.mem_append.mp hall with hin | hin
      · exact hroot r ((List.mem_append.mp hin).resolve_left hr)
      · exact absurd harr (hlate r hin).not_ge
    · exact h.prompt hrun t ht (hself ▸ hlt) fun r hr => (hsame r hr) ▸ hall r hr
  · refine h.gantt.trans (List.map_congr_left fun r hr => ?_)
    rw [chartEntry, chartEntry, hsame r hr]
  · rw [hother r (ne_of_mem_of_not_mem hr hnew), hsame r hr]
    exact h.finished r hr
  · obtain rfl := Option.some.inj hr
    have hremaining := startProcess_field Process.remainingTime (fun _ _ => rfl) s₁ p p
    rw [hself, hremaining]
    have hname : (s.state.processes p).pid = (w.processes p).pid := (h.record p).1
    refine ⟨hname, rfl, ?_, ?_⟩
    · exact hburst.trans_eq hrem.symm
    · show (s.state.processes p).remainingTime =
        s.state.currentTime + w.burstTime p - s.state.currentTime
      rw [hrem]
      omega
  · have hne : r ≠ p := fun heq => hgone (heq ▸ hr)
    rw [startTimes, hother r hne]
    refine h.waiting r ?_
    rcases List.mem_append.mp hr with hr | hr
    · exact List.mem_append_left _ (hperm.mem_iff.mpr (List.mem_cons_of_mem p hr))
    · exact List.mem_append_right _ hr

theorem Serving.notMem (h : Serving side w done s) (hrun : s.currentProcess = some p) :
    p ∉ done ∧ p ∉ s.heap ++ s.notInserted := by
  have hnodup := h.placed.nodup_iff.mpr (List.nodup_finRange n)
  rw [hrun, Option.toList_some, List.append_assoc, List.append_assoc,
    List.singleton_append] at hnodup
  have hnodup := List.nodup_append.mp hnodup
  exact ⟨fun hp => hnodup.2.2 p hp p List.mem_cons_self rfl, (List.nodup_cons.mp hnodup.2.1).1⟩

theorem Serving.goesOn (h : Serving side w done s) (hrun : s.currentProcess = some p)
    (hrem : (s.state.processes p).remainingTime ≠ 1) : Serving side w done (s.tick p) := by
  obtain ⟨-, hgone⟩ := h.notMem hrun
  have hstart : (s.tick p).startTimes = s.startTimes :=
    funext (s.state.tick_field Process.startTime (fun _ _ => rfl) p)
  have hle : s.state.currentTime ≤ (s.tick p).state.currentTime := Int.le_add_one le_rfl
  refine ⟨fun r => ⟨?_, ?_, ?_⟩, h.heap, h.placed, fun r hr => (h.arrived r hr).trans hle, h.count,
    h.time.trans hle, hstart ▸ h.choices, hstart ▸ h.gantt, fun r hr => ?_, fun r hr => ?_,
    fun hnone => ?_, fun r hr => ?_⟩
  · exact (s.state.tick_field Process.pid (fun _ _ => rfl) p r).trans (h.record r).1
  · exact (s.state.tick_field Process.arrivalTime (fun _ _ => rfl) p r).trans (h.record r).2.1
  · exact (s.state.tick_field Process.burstTime (fun _ _ => rfl) p r).trans (h.record r).2.2
  · rw [hstart, tick, s.state.tick_field Process.finishTime fun _ _ => rfl]
    exact ⟨(h.finished r hr).1, (h.finished r hr).2.trans hle⟩
  · obtain ⟨hname, hentry, hpos, heq⟩ := h.current r hr
    obtain rfl := Option.some.inj (hrun.symm.trans hr)
    rw [hstart, tick, SchedulerState.tick_remainingTime]
    refine ⟨hname, hentry, ?_, ?_⟩
    · omega
    · show _ = s.startTimes p + w.burstTime p - (s.state.currentTime + 1)
      omega
  · exact absurd (hrun.symm.trans hnone) (Option.some_ne_none p)
  · rw [hstart, tick, SchedulerState.tick_of_ne (ne_of_mem_of_not_mem hr hgone)]
    exact h.waiting r hr

theorem Serving.completes (h : Serving side w done s) (hrun : s.currentProcess = some p)
    (hrem : (s.state.processes p).remainingTime = 1) :
    Serving side w (done ++ [p]) ((s.tick p).completeIfDone p) := by
  obtain ⟨hnew, hgone⟩ := h.notMem hrun
  obtain ⟨hname, hentry, -, hstop⟩ := h.current p hrun
  have hnow : s.state.currentTime + 1 = s.startTimes p + w.burstTime p := by omega
  have hstart : ∀ r, (((s.state.tick p).finish p).processes r).startTime = s.startTimes r :=
    s.state.finish_tick_field Process.startTime (fun _ _ => rfl) (fun _ _ => rfl) p
  have hfinish : (((s.state.tick p).finish p).processes p).finishTime = s.state.currentTime + 1 :=
    (s.state.tick p).finish_finishTime p
  have hle : s.state.currentTime ≤ s.state.currentTime + 1 := Int.le_add_one le_rfl
  have hplaced := h.placed
  have hchoices := h.choices
  rw [hrun, Option.toList_some] at hplaced hchoices
  rw [completeIfDone_of_last hrem]
  have hstarts : startTimes { s with
      state := ((s.state.tick p).finish p).closeEntry s.ganttEntry
      ganttEntry := .zero
      currentProcess := none
      completedProcess := s.completedProcess + 1 } = s.startTimes := funext hstart
  refine ⟨fun r => ⟨?_, ?_, ?_⟩, h.heap, ?_, fun r hr => (h.arrived r hr).trans hle, ?_,
    h.time.trans hle, ?_, ?_, fun r hr => ?_, nofun, fun _ t ht hlt hall => ?_, fun r hr => ?_⟩
  · exact (s.state.finish_tick_field Process.pid (fun _ _ => rfl) (fun _ _ => rfl) p r).trans
      (h.record r).1
  · exact (s.state.finish_tick_field Process.arrivalTime (fun _ _ => rfl) (fun _ _ => rfl) p r).trans
      (h.record r).2.1
  · exact (s.state.finish_tick_field Process.burstTime (fun _ _ => rfl) (fun _ _ => rfl) p r).trans
      (h.record r).2.2
  · rw [Option.toList_none, List.append_nil]
    exact hplaced
  · rw [List.length_append]
    exact congrArg (· + 1) h.count
  · rw [hstarts, Option.toList_none, List.append_nil]
    exact hchoices
  · have hclosed : chartEntry w s.startTimes p =
        { s.ganttEntry with stop := s.state.currentTime + 1 } := by
      rw [chartEntry, ← hname, ← hnow, ← hentry]
    rw [hstarts, List.map_append, ← h.gantt, List.map_singleton, hclosed]
    rfl
  · rw [hstarts]
    rcases List.mem_append.mp hr with hr | hr
    · have hkept := SchedulerState.finish_tick_of_ne (ne_of_mem_of_not_mem hr hnew) s.state
      obtain ⟨hstop, hbefore⟩ := h.finished r hr
      exact ⟨(congrArg Process.finishTime hkept).trans hstop,
        (congrArg Process.finishTime hkept).trans_le (hbefore.trans hle)⟩
    · obtain rfl := List.mem_singleton.mp hr
      exact ⟨hfinish.trans hnow, hfinish.le⟩
  · rw [hstarts] at hall
    exact absurd (hall p (by simp)) (hlt.trans_eq hnow).not_ge
  · rw [hstarts]
    have hkept := SchedulerState.finish_tick_of_ne (ne_of_mem_of_not_mem hr hgone) s.state
    obtain ⟨hleft, hunknown⟩ := h.waiting r hr
    exact ⟨(congrArg Process.remainingTime hkept).trans hleft, hunknown⟩

theorem Serving.idles (h : Serving side w done s)
    (hlate : ∀ r ∈ s.notInserted, s.state.currentTime < w.arrivalTime r)
    (hrun : s.currentProcess = none) (hheap : s.heap = []) : Serving side w done s.idleTick := by
  have hle : s.state.currentTime ≤ s.idleTick.state.currentTime := Int.le_add_one le_rfl
  refine { h with
    arrived := fun r hr => (h.arrived r hr).trans hle
    time := h.time.trans hle
    finished := fun r hr => ⟨(h.finished r hr).1, (h.finished r hr).2.trans hle⟩
    current := fun r hr => absurd (hrun.symm.trans hr) nofun
    prompt := fun _ t ht hlt hall r hr => ?_ }
  have hin := h.placed.mem_iff.mpr (List.mem_finRange r)
  rw [hrun, hheap, Option.toList_none, List.append_nil, List.append_nil] at hin
  exact (Int.lt_add_one_iff.mp hlt).trans_lt (hlate r ((List.mem_append.mp hin).resolve_left hr))

theorem Serving.round (h : Serving side w done s) (hburst : ∀ p, 1 ≤ w.burstTime p)
    (hs : s.round side = some s') : ∃ done', Serving side w done' s' := by
  unfold Sjf.round at hs
  split_ifs at hs
  obtain ⟨hscan, hlate⟩ := h.scanned
  have htime : (s.checkArrivalsHeap side).state.currentTime = s.state.currentTime := rfl
  rw [← htime] at hlate
  split at hs
  · rename_i hpick
    cases hs
    obtain ⟨hrun, hheap⟩ := pick_eq_none hpick
    exact ⟨done, hscan.idles hlate hrun hheap⟩
  · rename_i p s₁ hpick
    cases hs
    have hnext : Serving side w done s₁ ∧ s₁.currentProcess = some p := by
      rcases pick_eq_some hpick with ⟨hrun, rfl⟩ | ⟨hrun, heap, hheap, rfl⟩
      · exact ⟨hscan, hrun⟩
      · exact ⟨hscan.startProcess (hburst p) hlate hrun hheap, rfl⟩
    obtain ⟨hserving, hrun⟩ := hnext
    by_cases hrem : (s₁.state.processes p).remainingTime = 1
    · exact ⟨done ++ [p], hserving.completes hrun hrem⟩
    · rw [completeIfDone_of_more hrem]
      exact ⟨done, hserving.goesOn hrun hrem⟩

theorem serving_start (side : MergeSide) (w : Workload n) : Serving side w [] (start w) where
  record _ := ⟨rfl, rfl, rfl⟩
  heap _ _ := by simp [start, Before]
  placed := .refl _
  arrived := nofun
  count := rfl
  time := le_rfl
  choices := eachTurn_nil
  gantt := rfl
  finished := nofun
  current := nofun
  prompt _ t ht hlt := absurd ht hlt.not_ge
  waiting _ _ := ⟨rfl, rfl⟩

theorem reaches_serving (hburst : ∀ p, 1 ≤ w.burstTime p)
    (h : Loop.Reaches (Sjf.round side) (start w) s) : ∃ done, Serving side w done s :=
  h.invariant (fun s => ∃ done, Serving side w done s) (fun _ _ hs ⟨_, hserving⟩ =>
    hserving.round hburst hs) ⟨[], serving_start side w⟩

theorem Serving.all_done (h : Serving side w done s) (hend : s.round side = none) :
    s.currentProcess = none ∧ done.Perm (List.finRange n) := by
  have hcount : n ≤ done.length := by
    unfold Sjf.round at hend
    split_ifs at hend with hlt
    · split at hend <;> cases hend
    · rw [← h.count]
      exact Nat.le_of_not_lt hlt
  have hlen := h.placed.length_eq
  simp only [List.length_append, List.length_finRange] at hlen
  have hplaced := h.placed
  have hcurrent : s.currentProcess.toList = [] := List.eq_nil_of_length_eq_zero (by omega)
  have hheap : s.heap = [] := List.eq_nil_of_length_eq_zero (by omega)
  have hleft : s.notInserted = [] := List.eq_nil_of_length_eq_zero (by omega)
  rw [hcurrent, hheap, hleft, List.append_nil, List.append_nil, List.append_nil] at hplaced
  exact ⟨Option.toList_eq_nil_iff.mp hcurrent, hplaced⟩

end Sjf

theorem scheduleSjf_returns {w : Workload n} (hburst : ∀ p, 1 ≤ w.burstTime p) (side : MergeSide) :
    ∃ fuel s, scheduleSjf w side fuel = some s := by
  obtain ⟨fuel, s, hrun⟩ :=
    ((Sjf.ticking w side).terminates_iff (Sjf.views_start w)).mpr hburst
  exact ⟨fuel, s.state, by rw [scheduleSjf, hrun, Option.map_some]⟩

/-- The processes are served one after the other, each in one piece and none before it is the choice
of the heap, with one entry of the chart for each. -/
theorem scheduleSjf_choices {w : Workload n} (hburst : ∀ p, 1 ≤ w.burstTime p) (side : MergeSide) :
    (∃ fuel s, scheduleSjf w side fuel = some s) ∧ ∀ fuel s, scheduleSjf w side fuel = some s →
      ∃ order, order.Perm (List.finRange n) ∧
        EachTurn (Choice side w fun p => (s.processes p).startTime) order ∧
        s.gantt = order.map (Sjf.chartEntry w fun p => (s.processes p).startTime) ∧
        ∀ p, (s.processes p).finishTime = (s.processes p).startTime + w.burstTime p := by
  refine ⟨scheduleSjf_returns hburst side, fun fuel s hrun => ?_⟩
  obtain ⟨a, hloop, rfl⟩ := Option.map_eq_some_iff.mp hrun
  obtain ⟨hreach, hend⟩ := Loop.run_reaches hloop
  obtain ⟨order, hserving⟩ := Sjf.reaches_serving hburst hreach
  obtain ⟨hidle, hall⟩ := hserving.all_done hend
  have hchoices := hserving.choices
  rw [hidle, Option.toList_none, List.append_nil] at hchoices
  refine ⟨order, hall, hchoices, hserving.gantt, fun p => (hserving.finished p ?_).1⟩
  exact hall.mem_iff.mpr (List.mem_finRange p)

theorem scheduleSjf_choices_sample :
    (∃ fuel s, scheduleSjf sampleWorkload .head fuel = some s) ∧
      ∀ fuel s, scheduleSjf sampleWorkload .head fuel = some s →
        ∃ order, order.Perm (List.finRange 2) ∧
          EachTurn (Choice .head sampleWorkload fun p => (s.processes p).startTime) order ∧
          s.gantt = order.map (Sjf.chartEntry sampleWorkload fun p => (s.processes p).startTime) ∧
          ∀ p, (s.processes p).finishTime =
            (s.processes p).startTime + sampleWorkload.burstTime p :=
  scheduleSjf_choices (by decide) .head

end OsLab.Schedsim
