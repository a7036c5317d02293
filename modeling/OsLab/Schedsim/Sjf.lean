import OsLab.Schedsim.Stcf

/-! The tick-stepped `schedule_sjf`. -/

namespace OsLab.Schedsim

open Sched MinHeap

variable {n : Nat}

/-- `notInserted` is the array of pointers up to `notinserted_counter`, `heap` the data of the heap
up to its size. -/
structure Sjf (n : Nat) where
  state : SchedulerState n
  notInserted : List (Fin n)
  heap : List (Fin n)
  currentProcess : Option (Fin n)
  ganttEntry : GanttEntry
  completedProcess : Nat

namespace Sjf

def start (w : Workload n) : Sjf n :=
  ⟨initialState w, List.finRange n, [], none, .zero, 0⟩

def checkArrivalsHeap (side : MergeSide) (s : Sjf n) : Sjf n :=
  let (notInserted, heap) :=
    sweep s.state.hasArrived (heapInsert (s.state.inOrder side)) s.notInserted s.heap
  { s with notInserted, heap }

def startProcess (s : Sjf n) (p : Fin n) : Sjf n :=
  let t := s.state.currentTime
  { s with
    state := { s.state with processes :=
      if (s.state.processes p).startTime = unknownTime then
        s.state.processes.modify p fun q => { q with startTime := t }
      else s.state.processes }
    ganttEntry := { s.ganttEntry with name := (s.state.processes p).pid, start := t } }

/-- The process that runs; `none` if there is none and none in the heap. -/
def pick (side : MergeSide) (s : Sjf n) : Option (Fin n × Sjf n) :=
  match s.currentProcess with
  | some p => some (p, s)
  | none =>
    match heapExtractMin (s.state.isLess side) s.heap with
    | none => none
    | some (p, heap) => some (p, { s with heap, currentProcess := some p }.startProcess p)

def tick (s : Sjf n) (p : Fin n) : Sjf n := { s with state := s.state.tick p }

def completeIfDone (s : Sjf n) (p : Fin n) : Sjf n :=
  if (s.state.processes p).remainingTime = 0 then
    { s with
      state := (s.state.finish p).closeEntry s.ganttEntry
      ganttEntry := .zero
      currentProcess := none
      completedProcess := s.completedProcess + 1 }
  else s

def idleTick (s : Sjf n) : Sjf n := { s with state := s.state.idleTick }

def round (side : MergeSide) (s : Sjf n) : Option (Sjf n) :=
  if s.completedProcess < n then
    match (s.checkArrivalsHeap side).pick side with
    | none => some (s.checkArrivalsHeap side).idleTick
    | some (p, s) => some ((s.tick p).completeIfDone p)
  else none

def runs (side : MergeSide) (s : Sjf n) : Option (Fin n) :=
  if s.completedProcess < n then ((s.checkArrivalsHeap side).pick side).map Prod.fst else none

end Sjf

def scheduleSjf (w : Workload n) (side : MergeSide) (fuel : Nat) : Option (SchedulerState n) :=
  (Loop.run (Sjf.round side) fuel (Sjf.start w)).map Sjf.state

namespace Sjf

variable {side : MergeSide} {s : Sjf n} {p : Fin n}

theorem checkArrivalsHeap_spec (side : MergeSide) (s : Sjf n) :
    (s.checkArrivalsHeap side).heap.Perm (s.heap ++ (swept s.state.hasArrived s.notInserted).2) ∧
      s.checkArrivalsHeap side = { s with
        notInserted := (swept s.state.hasArrived s.notInserted).1
        heap := (s.checkArrivalsHeap side).heap } := by
  unfold checkArrivalsHeap
  rw [sweep_eq]
  exact ⟨(foldl_heapInsert_perm _ _ _).trans List.perm_append_comm, rfl⟩

theorem pick_eq_some {s₁ : Sjf n} (hs : s.pick side = some (p, s₁)) :
    s.currentProcess = some p ∧ s₁ = s ∨
      s.currentProcess = none ∧ ∃ heap,
        heapExtractMin (s.state.isLess side) s.heap = some (p, heap) ∧
          s₁ = { s with heap, currentProcess := some p }.startProcess p := by
  unfold pick at hs
  split at hs
  · rename_i hrun
    cases hs
    exact .inl ⟨hrun, rfl⟩
  · rename_i hrun
    split at hs
    · cases hs
    · rename_i hheap
      cases hs
      exact .inr ⟨hrun, _, hheap, rfl⟩

theorem pick_eq_none (hs : s.pick side = none) : s.currentProcess = none ∧ s.heap = [] := by
  unfold pick at hs
  split at hs
  · cases hs
  · rename_i hrun
    split at hs
    · rename_i hheap
      exact ⟨hrun, heapExtractMin_eq_none.mp hheap⟩
    · cases hs

theorem completeIfDone_of_last (h : (s.state.processes p).remainingTime = 1) :
    (s.tick p).completeIfDone p = { s with
      state := ((s.state.tick p).finish p).closeEntry s.ganttEntry
      ganttEntry := .zero
      currentProcess := none
      completedProcess := s.completedProcess + 1 } :=
  if_pos ((SchedulerState.tick_remainingTime ..).trans (by omega))

theorem completeIfDone_of_more (h : (s.state.processes p).remainingTime ≠ 1) :
    (s.tick p).completeIfDone p = s.tick p :=
  if_neg fun hzero => h (by rw [tick, SchedulerState.tick_remainingTime] at hzero; omega)

end Sjf

end OsLab.Schedsim
