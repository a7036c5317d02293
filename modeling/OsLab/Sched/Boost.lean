import OsLab.Sched.Accounting

/-! Priority boost. `handle_priority_boost` takes the CPU from a running process without
removing the queued end of its segment, which STCF's preemption does remove. The segment has
been charged in full, so it overlaps with the next one and its process can end too early. As
long as no boost interrupts a segment, all accounting holds as it does without boosts. -/

namespace OsLab.Sched

variable {n : Nat} {pol : Policy} {w : Workload n}

open SchedulerState

def DisjointSegments (s : SchedulerState pol n) : Prop :=
  s.dispatches.Pairwise fun d d' => Disjoint (Set.Ico d.time d.stop) (Set.Ico d'.time d'.stop)

def BoostSafeRun (pol : Policy) (w : Workload n) : Prop :=
  ∀ s, Loop.Reaches loopBody (startState pol w) s → s.BoostSafe

theorem SchedulerState.Coherent.disjointSegments {s : SchedulerState pol n} (h : Coherent w s) :
    DisjointSegments s := by
  refine h.consecutive.imp fun hle => Set.disjoint_left.mpr fun u hu hu' => ?_
  exact absurd (hu.2.trans_le hle) (not_lt.mpr hu'.1)

def boostConfig : MLFQConfig where
  levels i := if i = 0 then ⟨0, 10, -1⟩ else ⟨0, 0, 0⟩
  numLevels := 1
  boostPeriod := 1000
  numLevels_le := one_le_maxMlfqLevels

def boostPolicy : Policy := .mlfq boostConfig (by decide)

def oneProcess (arrivalTime burstTime : Int) : Workload 1 where
  pid _ := ['P']
  arrivalTime _ := arrivalTime
  burstTime _ := burstTime

def boostWorkload : Workload 1 := oneProcess 995 15

structure BoostInput (config : MLFQConfig) (w : Workload n) : Prop where
  arrival : ∀ p, 0 ≤ w.arrivalTime p
  burst : ∀ p, 1 ≤ w.burstTime p
  quantum : ∀ level, mlfqGetQuantum config level = -1 ∨ 1 ≤ mlfqGetQuantum config level
  allotment : ∀ level, mlfqGetAllotment config level = -1 ∨ 1 ≤ mlfqGetAllotment config level
  boostPeriod : 1 ≤ config.boostPeriod

theorem boostInput_of_levels {config : MLFQConfig} (harrival : ∀ p, 0 ≤ w.arrivalTime p)
    (hburst : ∀ p, 1 ≤ w.burstTime p)
    (hlevels : ∀ i : Fin maxMlfqLevels, i < config.numLevels →
      ((config.levels i).timeQuantum = -1 ∨ 1 ≤ (config.levels i).timeQuantum) ∧
        ((config.levels i).allotment = -1 ∨ 1 ≤ (config.levels i).allotment))
    (hboost : 1 ≤ config.boostPeriod) : BoostInput config w where
  arrival := harrival
  burst := hburst
  quantum level := by
    unfold mlfqGetQuantum
    obtain hnone | ⟨i, hi, hsome⟩ := config.level?_cases level
    · rw [hnone]
      exact .inl rfl
    · rw [hsome]
      exact (hlevels i hi).1
  allotment level := by
    unfold mlfqGetAllotment
    obtain hnone | ⟨i, hi, hsome⟩ := config.level?_cases level
    · rw [hnone]
      exact .inl rfl
    · rw [hsome]
      exact (hlevels i hi).2
  boostPeriod := hboost

theorem BoostInput.nonneg {config : MLFQConfig} (h : BoostInput config w) : w.Nonneg :=
  ⟨h.arrival, fun p => (h.burst p).trans' Int.one_nonneg⟩

theorem boostInput : BoostInput boostConfig boostWorkload :=
  boostInput_of_levels (by decide) (by decide) (by decide) (by decide)

theorem boostPolicy_valid : boostPolicy.Valid := boostInput.quantum

end OsLab.Sched
