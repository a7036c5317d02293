import OsLab.Foundation.Loop
import OsLab.Foundation.MinHeap
import OsLab.Schedsim.Arrivals

/-! The tick-stepped `schedule_stcf`. Its heap is ordered by burst times, which do not change, so a
tick goes to a shortest remaining time if the two orders agree on the processes that are ready. -/

namespace OsLab.Schedsim

open Sched MinHeap

variable {n : Nat}

/-- The sides of the merge conflicts in `minheap.c`. -/
inductive MergeSide where
  | head
  | theirs
deriving DecidableEq, Repr

/-- The condition of `heapify_up`. -/
def SchedulerState.inOrder (side : MergeSide) (s : SchedulerState n) (p1 p2 : Fin n) : Bool :=
  match side with
  | .head => (s.processes p1).burstTime ≤ (s.processes p2).burstTime
  | .theirs => (s.processes p1).burstTime < (s.processes p2).burstTime ∨
      (s.processes p1).burstTime = (s.processes p2).burstTime ∧
        (s.processes p1).arrivalTime ≤ (s.processes p2).arrivalTime

/-- The conditions of `heapify_down`. -/
def SchedulerState.isLess (side : MergeSide) (s : SchedulerState n) (p1 p2 : Fin n) : Bool :=
  match side with
  | .head => (s.processes p1).burstTime < (s.processes p2).burstTime
  | .theirs => (s.processes p1).burstTime < (s.processes p2).burstTime ∨
      (s.processes p1).burstTime = (s.processes p2).burstTime ∧
        (s.processes p1).arrivalTime < (s.processes p2).arrivalTime

/-- `notInserted` is the array of pointers up to `notinserted_counter`, `heap` the data of the heap
up to its size. -/
structure Stcf (n : Nat) where
  state : SchedulerState n
  notInserted : List (Fin n)
  heap : List (Fin n)
  ganttEntry : GanttEntry
  currentPid : List Char
  completed : Nat

def pidHolder : List Char := "x_pid_holder".toList

namespace Stcf

def start (w : Workload n) : Stcf n :=
  ⟨initialState w, List.finRange n, [], .zero, pidHolder, 0⟩

def checkArrivalsHeap (side : MergeSide) (s : Stcf n) : Stcf n :=
  let (notInserted, heap) :=
    sweep s.state.hasArrived (heapInsert (s.state.inOrder side)) s.notInserted s.heap
  { s with notInserted, heap }

def startProcess (s : Stcf n) (p : Fin n) : Stcf n :=
  if (s.state.processes p).startTime = unknownTime then
    let t := s.state.currentTime
    { s with state := { s.state with
        processes := s.state.processes.modify p fun q => { q with startTime := t } } }
  else s

def switchGantt (s : Stcf n) (p : Fin n) : Stcf n :=
  let t := s.state.currentTime
  if (s.state.processes p).pid = s.currentPid then s
  else
    { s with
      state := if s.currentPid = pidHolder then s.state else s.state.closeEntry s.ganttEntry
      ganttEntry := ⟨(s.state.processes p).pid, t,
        if s.currentPid = pidHolder then s.ganttEntry.stop else t⟩
      currentPid := (s.state.processes p).pid }

def tick (s : Stcf n) (p : Fin n) : Stcf n := { s with state := s.state.tick p }

def completeOrReinsert (side : MergeSide) (s : Stcf n) (p : Fin n) : Stcf n :=
  if (s.state.processes p).remainingTime = 0 then
    { s with
      state := (s.state.finish p).closeEntry s.ganttEntry
      ganttEntry := .zero
      currentPid := pidHolder
      completed := s.completed + 1 }
  else { s with heap := heapInsert (s.state.inOrder side) s.heap p }

def idleTick (s : Stcf n) : Stcf n := { s with state := s.state.idleTick }

def pick (side : MergeSide) (s : Stcf n) : Option (Fin n × List (Fin n)) :=
  heapExtractMin (s.state.isLess side) s.heap

def runUnit (side : MergeSide) (s : Stcf n) (p : Fin n) : Stcf n :=
  ((((s.startProcess p).switchGantt p).tick p).checkArrivalsHeap side).completeOrReinsert side p

def round (side : MergeSide) (s : Stcf n) : Option (Stcf n) :=
  if s.completed < n then
    match (s.checkArrivalsHeap side).pick side with
    | none => some (s.checkArrivalsHeap side).idleTick
    | some (p, heap) => some ({ s.checkArrivalsHeap side with heap }.runUnit side p)
  else none

def runs (side : MergeSide) (s : Stcf n) : Option (Fin n) :=
  if s.completed < n then ((s.checkArrivalsHeap side).pick side).map Prod.fst else none

end Stcf

def SchedulerState.Ready (s : SchedulerState n) (p : Fin n) : Prop :=
  (s.processes p).arrivalTime ≤ s.currentTime ∧ (s.processes p).finishTime = unknownTime

def Stcf.RunsShortest (side : MergeSide) (s : Stcf n) : Prop :=
  ∀ p, s.runs side = some p → s.state.Ready p ∧ ∀ q, s.state.Ready q →
    (s.state.processes p).remainingTime ≤ (s.state.processes q).remainingTime

/-- A ready process that comes first in the order of the heap has a shortest remaining time. -/
def Stcf.OrdersAgree (side : MergeSide) (s : Stcf n) : Prop :=
  ∀ p, s.state.Ready p → (∀ q, s.state.Ready q → s.state.inOrder side p q = true) →
    ∀ q, s.state.Ready q →
      (s.state.processes p).remainingTime ≤ (s.state.processes q).remainingTime

def Stcf.Untied (side : MergeSide) (s : Stcf n) : Prop :=
  ∀ p q, s.state.Ready p → s.state.Ready q → s.state.inOrder side p q = true →
    s.state.inOrder side q p = true → p = q

instance (s : SchedulerState n) : DecidablePred s.Ready := fun _ =>
  inferInstanceAs (Decidable (_ ∧ _))

instance (side : MergeSide) (s : Stcf n) : Decidable (s.RunsShortest side) :=
  inferInstanceAs (Decidable (∀ _, _))

instance (side : MergeSide) (s : Stcf n) : Decidable (s.OrdersAgree side) :=
  inferInstanceAs (Decidable (∀ _, _))

theorem keyOrder (side : MergeSide) (s : SchedulerState n) :
    KeyOrder (s.inOrder side) (s.isLess side) := by
  cases side with
  | head =>
    refine ⟨fun a b => ?_, fun a b c => ?_, fun a b => ?_⟩ <;>
      simp only [SchedulerState.inOrder, SchedulerState.isLess, decide_eq_true_eq] <;> omega
  | theirs =>
    refine ⟨fun a b => ?_, fun a b c => ?_, fun a b => ?_⟩ <;>
      simp only [SchedulerState.inOrder, SchedulerState.isLess, decide_eq_true_eq] <;> omega

theorem foldl_heapInsert_perm {α : Type*} (le : α → α → Bool) (taken heap : List α) :
    (taken.foldl (heapInsert le) heap).Perm (taken ++ heap) := by
  induction taken generalizing heap with
  | nil => exact .refl heap
  | cons p taken ih =>
    exact (ih _).trans (((heapInsert_perm heap p).append_left taken).trans List.perm_middle)

theorem foldl_heapInsert_isHeap {α : Type*} {le less : α → α → Bool} (ho : KeyOrder le less)
    (taken : List α) {heap : List α} (h : IsHeap le heap) :
    IsHeap le (taken.foldl (heapInsert le) heap) := by
  induction taken generalizing heap with
  | nil => exact h
  | cons p taken ih => exact ih (h.heapInsert ho p)

namespace Stcf

variable {side : MergeSide} {w : Workload n} {s s' : Stcf n} {out : List (Fin n)} {p : Fin n}

/-- The heap, the array of pointers and what is out of both are the processes that are not
finished. -/
structure Holding (side : MergeSide) (w : Workload n) (out : List (Fin n)) (s : Stcf n) : Prop where
  arrivalTime : ∀ p, (s.state.processes p).arrivalTime = w.arrivalTime p
  burstTime : ∀ p, (s.state.processes p).burstTime = w.burstTime p
  heap : IsHeap ((initialState w).inOrder side) s.heap
  nodup : (out ++ s.heap ++ s.notInserted).Nodup
  unfinished : ∀ p, p ∈ out ++ s.heap ++ s.notInserted ↔
    (s.state.processes p).finishTime = unknownTime
  arrived : ∀ p ∈ out ++ s.heap, w.arrivalTime p ≤ s.state.currentTime
  time : 0 ≤ s.state.currentTime

theorem Holding.inOrder_eq (h : Holding side w out s) :
    s.state.inOrder side = (initialState w).inOrder side := by
  funext p q
  cases side <;> simp only [SchedulerState.inOrder, h.arrivalTime, h.burstTime] <;> rfl

theorem checkArrivalsHeap_perm (side : MergeSide) (s : Stcf n) (out : List (Fin n)) :
    (out ++ (s.checkArrivalsHeap side).heap ++ (s.checkArrivalsHeap side).notInserted).Perm
      (out ++ s.heap ++ s.notInserted) := by
  unfold checkArrivalsHeap
  rw [sweep_eq, List.append_assoc, List.append_assoc]
  refine List.Perm.append_left out ?_
  refine ((foldl_heapInsert_perm _ _ _).append_right _).trans ?_
  refine (List.perm_append_comm.append_right _).trans ?_
  rw [List.append_assoc]
  exact (swept_perm _ _).append_left s.heap

theorem Holding.checkArrivalsHeap (h : Holding side w out s) :
    Holding side w out (s.checkArrivalsHeap side) := by
  have hperm := checkArrivalsHeap_perm side s out
  refine ⟨h.arrivalTime, h.burstTime, ?_, hperm.nodup_iff.mpr h.nodup, fun p => ?_, fun p hp => ?_,
    h.time⟩
  · unfold Stcf.checkArrivalsHeap
    rw [sweep_eq, h.inOrder_eq]
    exact foldl_heapInsert_isHeap (keyOrder side _) _ h.heap
  · rw [hperm.mem_iff]
    exact h.unfinished p
  · rcases List.mem_append.mp hp with hout | hheap
    · exact h.arrived p (List.mem_append_left _ hout)
    · unfold Stcf.checkArrivalsHeap at hheap
      rw [sweep_eq] at hheap
      rcases List.mem_append.mp ((foldl_heapInsert_perm _ _ _).mem_iff.mp hheap) with htaken | hold
      · have harrived := (mem_swept_taken.mp htaken).2
        rw [SchedulerState.hasArrived, decide_eq_true_eq, h.arrivalTime] at harrived
        exact harrived
      · exact h.arrived p (List.mem_append_right _ hold)

theorem Holding.mem_heap_iff (h : Holding side w [] s) :
    p ∈ (s.checkArrivalsHeap side).heap ↔ s.state.Ready p := by
  have hscan := h.checkArrivalsHeap
  constructor
  · intro hp
    refine ⟨(h.arrivalTime p).trans_le (hscan.arrived p hp), (hscan.unfinished p).mp ?_⟩
    exact List.mem_append_left _ hp
  · rintro ⟨harrived, hfinish⟩
    refine (List.mem_append.mp ((hscan.unfinished p).mpr hfinish)).resolve_right fun hleft => ?_
    unfold Stcf.checkArrivalsHeap at hleft
    rw [sweep_eq] at hleft
    have hlate := (mem_swept_left.mp hleft).2
    rw [SchedulerState.hasArrived, decide_eq_false_iff_not] at hlate
    exact hlate harrived

theorem Holding.pick (h : Holding side w [] s) {rest : List (Fin n)}
    (hp : s.pick side = some (p, rest)) :
    Holding side w [p] { s with heap := rest } ∧ p ∈ s.heap ∧
      ∀ q ∈ s.heap, s.state.inOrder side p q = true := by
  have hless : s.state.isLess side = (initialState w).isLess side := by
    funext p q
    cases side <;> simp only [SchedulerState.isLess, h.arrivalTime, h.burstTime] <;> rfl
  rw [Stcf.pick, hless] at hp
  obtain ⟨hheap, hperm, hroot⟩ := h.heap.heapExtractMin (keyOrder side (initialState w)) hp
  have hall : ([p] ++ rest ++ s.notInserted).Perm ([] ++ s.heap ++ s.notInserted) :=
    hperm.symm.append_right _
  rw [h.inOrder_eq]
  refine ⟨⟨h.arrivalTime, h.burstTime, hheap, hall.nodup_iff.mpr h.nodup, fun q => ?_,
    fun q hq => ?_, h.time⟩, hperm.mem_iff.mpr List.mem_cons_self, hroot⟩
  · rw [← h.unfinished q]
    exact hall.mem_iff
  · exact h.arrived q (hperm.mem_iff.mpr hq)

theorem Holding.congr (h : Holding side w out s) (hheap : s'.heap = s.heap)
    (hnot : s'.notInserted = s.notInserted) (htime : s.state.currentTime ≤ s'.state.currentTime)
    (harrival : ∀ p, (s'.state.processes p).arrivalTime = (s.state.processes p).arrivalTime)
    (hburst : ∀ p, (s'.state.processes p).burstTime = (s.state.processes p).burstTime)
    (hfinish : ∀ p, (s'.state.processes p).finishTime = (s.state.processes p).finishTime) :
    Holding side w out s' where
  arrivalTime p := (harrival p).trans (h.arrivalTime p)
  burstTime p := (hburst p).trans (h.burstTime p)
  heap := hheap ▸ h.heap
  nodup := hheap ▸ hnot ▸ h.nodup
  unfinished p := by
    rw [hheap, hnot, hfinish]
    exact h.unfinished p
  arrived p hp := (h.arrived p (hheap ▸ hp)).trans htime
  time := h.time.trans htime

theorem Holding.startProcess (h : Holding side w out s) (p : Fin n) :
    Holding side w out (s.startProcess p) := by
  unfold Stcf.startProcess
  split_ifs
  · exact h.congr rfl rfl le_rfl (Table.modify_field Process.arrivalTime _ _ _ rfl)
      (Table.modify_field Process.burstTime _ _ _ rfl)
      (Table.modify_field Process.finishTime _ _ _ rfl)
  · exact h

theorem Holding.switchGantt (h : Holding side w out s) (p : Fin n) :
    Holding side w out (s.switchGantt p) := by
  unfold Stcf.switchGantt
  split_ifs
  · exact h
  · exact h.congr rfl rfl le_rfl (fun _ => rfl) (fun _ => rfl) fun _ => rfl
  · exact h.congr rfl rfl le_rfl (fun _ => rfl) (fun _ => rfl) fun _ => rfl

theorem Holding.tick (h : Holding side w out s) (p : Fin n) : Holding side w out (s.tick p) :=
  h.congr rfl rfl (Int.le_add_one le_rfl)
    (s.state.tick_field Process.arrivalTime (fun _ _ => rfl) p)
    (s.state.tick_field Process.burstTime (fun _ _ => rfl) p)
    (s.state.tick_field Process.finishTime (fun _ _ => rfl) p)

theorem Holding.completeOrReinsert (h : Holding side w [p] s) :
    Holding side w [] (s.completeOrReinsert side p) := by
  unfold Stcf.completeOrReinsert
  split_ifs with hdone
  · obtain ⟨hnew, hnodup⟩ := List.nodup_cons.mp h.nodup
    refine ⟨fun q => ?_, fun q => ?_, h.heap, hnodup, fun q => ?_, fun q hq => ?_, h.time⟩
    · exact (s.state.finish_field Process.arrivalTime (fun _ _ => rfl) p q).trans (h.arrivalTime q)
    · exact (s.state.finish_field Process.burstTime (fun _ _ => rfl) p q).trans (h.burstTime q)
    · have hunfinished := h.unfinished q
      have htime := h.time
      rcases eq_or_ne q p with rfl | hq
      · refine iff_of_false hnew fun heq => ?_
        have hstop := (s.state.finish_finishTime q).symm.trans heq
        simp only [unknownTime] at hstop
        omega
      · rw [List.append_assoc, List.singleton_append, List.mem_cons,
          or_iff_right hq] at hunfinished
        refine hunfinished.trans (Eq.congr_left ?_)
        exact congrArg Process.finishTime (SchedulerState.finish_of_ne hq s.state).symm
    · exact h.arrived q (List.mem_append_right _ hq)
  · have hperm : ([] ++ heapInsert (s.state.inOrder side) s.heap p ++ s.notInserted).Perm
        ([p] ++ s.heap ++ s.notInserted) := (heapInsert_perm s.heap p).append_right _
    refine ⟨h.arrivalTime, h.burstTime, ?_, hperm.nodup_iff.mpr h.nodup, fun q => ?_,
      fun q hq => ?_, h.time⟩
    · show IsHeap _ (heapInsert (s.state.inOrder side) s.heap p)
      rw [h.inOrder_eq]
      exact h.heap.heapInsert (keyOrder side _) p
    · rw [← h.unfinished q]
      exact hperm.mem_iff
    · exact h.arrived q ((heapInsert_perm s.heap p).mem_iff.mp hq)

theorem Holding.round (h : Holding side w [] s) (hs : s.round side = some s') :
    Holding side w [] s' := by
  have hscan := h.checkArrivalsHeap
  unfold Stcf.round at hs
  split_ifs at hs
  split at hs
  · cases hs
    exact hscan.congr rfl rfl (Int.le_add_one le_rfl) (fun _ => rfl) (fun _ => rfl) fun _ => rfl
  · rename_i p rest hpick
    cases hs
    have hout := (hscan.pick hpick).1
    exact ((((hout.startProcess p).switchGantt p).tick p).checkArrivalsHeap).completeOrReinsert

theorem holding_start (w : Workload n) (side : MergeSide) : Holding side w [] (start w) where
  arrivalTime _ := rfl
  burstTime _ := rfl
  heap _ _ := by simp [start, Before]
  nodup := List.nodup_finRange n
  unfinished p := iff_of_true (List.mem_finRange p) rfl
  arrived := nofun
  time := le_rfl

theorem reaches_holding (h : Loop.Reaches (round side) (start w) s) :
    Holding side w [] s :=
  h.invariant (Holding side w []) (fun _ _ hs hold => hold.round hs) (holding_start w side)

theorem Holding.runs (h : Holding side w [] s) (hp : s.runs side = some p) :
    s.state.Ready p ∧ ∀ q, s.state.Ready q → s.state.inOrder side p q = true := by
  unfold Stcf.runs at hp
  split_ifs at hp
  obtain ⟨⟨p', rest⟩, hpick, rfl⟩ := Option.map_eq_some_iff.mp hp
  obtain ⟨_, hmem, hroot⟩ := h.checkArrivalsHeap.pick hpick
  exact ⟨h.mem_heap_iff.mp hmem, fun q hq => hroot q (h.mem_heap_iff.mpr hq)⟩

end Stcf

/-- Under either side, in every state that a run reaches: the time unit goes to a shortest remaining
time if the order of the heap agrees with that of the remaining times, and, if no two of the ready
processes are level in the heap, only then. -/
theorem stcf_runsShortest {w : Workload n} (side : MergeSide) {s : Stcf n}
    (h : Loop.Reaches (Stcf.round side) (Stcf.start w) s) :
    (s.OrdersAgree side → s.RunsShortest side) ∧
      (s.Untied side → (s.runs side).isSome → s.RunsShortest side → s.OrdersAgree side) := by
  have hold := Stcf.reaches_holding h
  constructor
  · intro hagree p hp
    obtain ⟨hready, hfirst⟩ := hold.runs hp
    exact ⟨hready, hagree p hready hfirst⟩
  · intro huntied hsome hshort p hready hfirst
    obtain ⟨r, hr⟩ := Option.isSome_iff_exists.mp hsome
    obtain ⟨hready', hfirst'⟩ := hold.runs hr
    obtain rfl := huntied p r hready hready' (hfirst r hready') (hfirst' p hready)
    exact (hshort p hr).2

/-- At time 2 both processes are ready, and the unit goes to the one that has just arrived. -/
theorem stcf_runsShortest_sample :
    (Loop.advance (Stcf.round .theirs) 2 (Stcf.start sampleWorkload)).state.Ready 0 ∧
      (Loop.advance (Stcf.round .theirs) 2 (Stcf.start sampleWorkload)).state.Ready 1 ∧
      (Loop.advance (Stcf.round .theirs) 2 (Stcf.start sampleWorkload)).runs .theirs = some 1 ∧
      (Loop.advance (Stcf.round .theirs) 2 (Stcf.start sampleWorkload)).RunsShortest .theirs :=
  ⟨by decide +kernel, by decide +kernel, by decide +kernel,
    (stcf_runsShortest .theirs (Loop.reaches_advance _ 2 _)).1 (by decide +kernel)⟩

/-- `A` has one unit left when `B` arrives with two. -/
def shorterWorkload : Workload 2 where
  pid := ![['A'], ['B']]
  arrivalTime := ![0, 2]
  burstTime := ![3, 2]

/-- Then the heap puts `B` first, because its burst is the shorter one. -/
theorem stcf_burst_first :
    (∃ s, Loop.Reaches (Stcf.round .head) (Stcf.start shorterWorkload) s ∧ ¬ s.RunsShortest .head) ∧
      ∃ s, Loop.Reaches (Stcf.round .theirs) (Stcf.start shorterWorkload) s ∧
        ¬ s.RunsShortest .theirs :=
  ⟨⟨_, Loop.reaches_advance _ 2 _, by decide +kernel⟩,
    _, Loop.reaches_advance _ 2 _, by decide +kernel⟩

end OsLab.Schedsim
