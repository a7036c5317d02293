import OsLab.Foundation.SwapRemove
import OsLab.Sched.QueueingRecurrence

/-! The tick-stepped simulator: its state, what the loops of the schedulers do to it, and the scan
that takes the processes that have arrived out of the array of pointers. Which processes a tick's
scan takes, and in which order, depends on the arrival times only. -/

namespace OsLab.Schedsim

open Sched

structure GanttEntry where
  name : List Char
  start : Int
  stop : Int
deriving DecidableEq, Repr

def GanttEntry.zero : GanttEntry := ⟨[], 0, 0⟩

/-- `gantt` is the array up to `gantt_size`, to which entries are only added: `maxGanttEntries` of
them have room. The times are exact integers. -/
structure SchedulerState (n : Nat) where
  processes : Table n
  currentTime : Int
  gantt : List GanttEntry

abbrev maxGanttEntries : Nat := 10000

variable {n : Nat}

def initialState (w : Workload n) : SchedulerState n := ⟨w.processes, 0, []⟩

/-- The condition of `check_arrivals` and of `check_arrivals_heap`. -/
def SchedulerState.hasArrived (s : SchedulerState n) (p : Fin n) : Bool :=
  (s.processes p).arrivalTime ≤ s.currentTime

namespace SchedulerState

/-- A time unit of `p`. -/
def tick (s : SchedulerState n) (p : Fin n) : SchedulerState n :=
  { s with
    processes := s.processes.modify p fun q => { q with remainingTime := q.remainingTime - 1 }
    currentTime := s.currentTime + 1 }

def idleTick (s : SchedulerState n) : SchedulerState n := { s with currentTime := s.currentTime + 1 }

/-- The unit has been the last of `p`. -/
def finish (s : SchedulerState n) (p : Fin n) : SchedulerState n :=
  { s with processes := s.processes.modify p fun q => { q with finishTime := s.currentTime } }

def closeEntry (s : SchedulerState n) (ganttEntry : GanttEntry) : SchedulerState n :=
  { s with gantt := s.gantt ++ [{ ganttEntry with stop := s.currentTime }] }

section Unit

variable {γ : Type*} {p q : Fin n}

theorem tick_processes (s : SchedulerState n) (p : Fin n) : (s.tick p).processes =
    s.processes.modify p fun q => { q with remainingTime := q.remainingTime - 1 } := rfl

theorem tick_of_ne (hq : q ≠ p) (s : SchedulerState n) :
    (s.tick p).processes q = s.processes q := by
  rw [tick_processes, Table.modify_of_ne hq]

theorem tick_remainingTime (s : SchedulerState n) (p : Fin n) :
    ((s.tick p).processes p).remainingTime = (s.processes p).remainingTime - 1 := by
  rw [tick_processes, Table.modify_self]

theorem tick_field (field : Process → γ)
    (hfield : ∀ (q : Process) (r : Int), field { q with remainingTime := r } = field q)
    (s : SchedulerState n) (p q : Fin n) : field ((s.tick p).processes q) = field (s.processes q) := by
  rw [tick_processes, Table.modify_field field _ _ _ (hfield _ _)]

theorem finish_processes (s : SchedulerState n) (p : Fin n) : (s.finish p).processes =
    s.processes.modify p fun q => { q with finishTime := s.currentTime } := rfl

theorem finish_of_ne (hq : q ≠ p) (s : SchedulerState n) :
    (s.finish p).processes q = s.processes q := by
  rw [finish_processes, Table.modify_of_ne hq]

theorem finish_finishTime (s : SchedulerState n) (p : Fin n) :
    ((s.finish p).processes p).finishTime = s.currentTime := by
  rw [finish_processes, Table.modify_self]

theorem finish_field (field : Process → γ)
    (hfield : ∀ (q : Process) (t : Int), field { q with finishTime := t } = field q)
    (s : SchedulerState n) (p q : Fin n) :
    field ((s.finish p).processes q) = field (s.processes q) := by
  rw [finish_processes, Table.modify_field field _ _ _ (hfield _ _)]

theorem finish_tick_of_ne (hq : q ≠ p) (s : SchedulerState n) :
    ((s.tick p).finish p).processes q = s.processes q :=
  (finish_of_ne hq _).trans (tick_of_ne hq s)

theorem finish_tick_field (field : Process → γ)
    (hrem : ∀ (q : Process) (r : Int), field { q with remainingTime := r } = field q)
    (hfinish : ∀ (q : Process) (t : Int), field { q with finishTime := t } = field q)
    (s : SchedulerState n) (p q : Fin n) :
    field (((s.tick p).finish p).processes q) = field (s.processes q) :=
  (finish_field field hfinish _ p q).trans (tick_field field hrem s p q)

end Unit
end SchedulerState

def arrivedAt (w : Workload n) (t : Nat) (p : Fin n) : Bool := w.arrivalTime p ≤ t

/-- What the scans before tick `t` leave in the array of pointers. -/
def unqueuedAt (w : Workload n) : Nat → List (Fin n)
  | 0 => List.finRange n
  | t + 1 => (swept (arrivedAt w t) (unqueuedAt w t)).1

/-- What the scan of tick `t` takes. -/
def takenAt (w : Workload n) (t : Nat) : List (Fin n) := (swept (arrivedAt w t) (unqueuedAt w t)).2

/-- What the scans before tick `t` have taken. -/
def takenBefore (w : Workload n) : Nat → List (Fin n)
  | 0 => []
  | t + 1 => takenBefore w t ++ takenAt w t

section Scans

variable {w : Workload n} {t : Nat} {p : Fin n}

theorem takenBefore_perm (w : Workload n) (t : Nat) :
    (takenBefore w t ++ unqueuedAt w t).Perm (List.finRange n) := by
  induction t with
  | zero => exact .refl _
  | succ t ih =>
    rw [takenBefore, unqueuedAt, takenAt, List.append_assoc]
    exact ((swept_perm _ _).append_left _).trans ih

theorem mem_unqueuedAt (hw : w.Nonneg) : p ∈ unqueuedAt w t ↔ (t : Int) ≤ w.arrivalTime p := by
  induction t with
  | zero => exact iff_of_true (List.mem_finRange p) (hw.arrival p)
  | succ t ih =>
    rw [unqueuedAt, mem_swept_left, ih, arrivedAt, decide_eq_false_iff_not]
    omega

theorem mem_takenAt (hw : w.Nonneg) : p ∈ takenAt w t ↔ w.arrivalTime p = t := by
  rw [takenAt, mem_swept_taken, mem_unqueuedAt hw, arrivedAt, decide_eq_true_eq]
  omega

theorem mem_takenBefore (hw : w.Nonneg) : p ∈ takenBefore w t ↔ w.arrivalTime p < t := by
  induction t with
  | zero => exact iff_of_false List.not_mem_nil (Int.not_lt.mpr (hw.arrival p))
  | succ t ih =>
    rw [takenBefore, List.mem_append, ih, mem_takenAt hw]
    omega

theorem takenBefore_nodup (w : Workload n) (t : Nat) : (takenBefore w t).Nodup := by
  have hnodup := (takenBefore_perm w t).nodup_iff.mpr (List.nodup_finRange n)
  exact (List.nodup_append.mp hnodup).1

theorem takenBefore_perm_of_length (h : n ≤ (takenBefore w t).length) :
    (takenBefore w t).Perm (List.finRange n) ∧ unqueuedAt w t = [] := by
  have hperm := takenBefore_perm w t
  have hlen := hperm.length_eq
  rw [List.length_append, List.length_finRange] at hlen
  have hnil : unqueuedAt w t = [] := List.eq_nil_of_length_eq_zero (by omega)
  rw [hnil, List.append_nil] at hperm
  exact ⟨hperm, hnil⟩

def ScansInOrder (w : Workload n) : Prop := ∀ t, (takenAt w t).Pairwise (· ≤ ·)

theorem takenBefore_pairwise (hw : w.Nonneg) (t : Nat) :
    (takenBefore w t).Pairwise (ComesFirst w) ↔ ∀ u < t, (takenAt w u).Pairwise (· ≤ ·) := by
  induction t with
  | zero => exact iff_of_true .nil fun u hu => absurd hu u.not_lt_zero
  | succ t ih =>
    have hcross : ∀ a ∈ takenBefore w t, ∀ b ∈ takenAt w t, ComesFirst w a b := fun a ha b hb =>
      .inl (((mem_takenBefore hw).mp ha).trans_eq ((mem_takenAt hw).mp hb).symm)
    have hlast : (takenAt w t).Pairwise (ComesFirst w) ↔ (takenAt w t).Pairwise (· ≤ ·) := by
      refine List.Pairwise.iff_of_mem fun {a b} ha hb => ?_
      have ha := (mem_takenAt hw).mp ha
      have hb := (mem_takenAt hw).mp hb
      unfold ComesFirst
      omega
    rw [takenBefore, List.pairwise_append, ih, hlast]
    constructor
    · rintro ⟨hbefore, hat, _⟩ u hu
      rcases Nat.lt_succ_iff_lt_or_eq.mp hu with hlt | rfl
      · exact hbefore u hlt
      · exact hat
    · exact fun h => ⟨fun u hu => h u (Nat.lt_succ_of_lt hu), h t t.lt_succ_self, hcross⟩

/-- Once all processes are taken, they are in the order of their arrivals exactly if every scan took
them in order. -/
theorem scansInOrder_iff (hw : w.Nonneg) (hall : unqueuedAt w t = []) :
    ScansInOrder w ↔ takenBefore w t = w.byArrival := by
  have hperm := takenBefore_perm w t
  rw [hall, List.append_nil] at hperm
  have hlate : ∀ u, t ≤ u → takenAt w u = [] := by
    refine fun u hu => List.eq_nil_iff_forall_not_mem.mpr fun p hp => ?_
    have hmem : p ∈ unqueuedAt w t := (mem_unqueuedAt hw).mpr (by
      rw [(mem_takenAt hw).mp hp]
      exact Int.ofNat_le.mpr hu)
    rw [hall] at hmem
    exact List.not_mem_nil hmem
  constructor
  · intro h
    exact Workload.eq_byArrival hperm ((takenBefore_pairwise hw t).mpr fun u _ => h u)
  · intro h u
    rcases Nat.lt_or_ge u t with hlt | hge
    · refine (takenBefore_pairwise hw t).mp ?_ u hlt
      rw [h]
      exact w.byArrival_pairwise
    · rw [hlate u hge]
      exact .nil

theorem scansInOrder_of_injective (hw : w.Nonneg) (h : Function.Injective w.arrivalTime) :
    ScansInOrder w := by
  refine fun t => List.Pairwise.iff_of_mem (fun {a b} ha hb => ?_) |>.mp
    (List.pairwise_of_forall fun _ _ => trivial : (takenAt w t).Pairwise fun _ _ => True)
  have hsame : a = b := h (((mem_takenAt hw).mp ha).trans ((mem_takenAt hw).mp hb).symm)
  exact iff_of_true trivial hsame.le

end Scans

end OsLab.Schedsim
