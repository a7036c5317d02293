import OsLab.Foundation.Rounding
import OsLab.Sched.ConservationLaw
import OsLab.Sched.ContextSwitches
import OsLab.Sched.IntTimes
import OsLab.Sched.RoundRobin
import OsLab.Sched.WorkloadLoader

/-! The table that `run_comparison` of `compare.c` prints: the averages of five algorithms on one
workload, which are `double`s, and how they compare. -/

namespace OsLab.Sched

variable {n : Nat} {pol : Policy}

/-- The `double` that an exact result becomes; none of the results is so large, or so close to 0, that
the exponent would matter. -/
def toDouble : ℚ → ℚ := Rounding.roundTo 53

structure AlgorithmResult where
  algorithmName : List Char
  avgTurnaround : ℚ
  avgWaiting : ℚ
  avgResponse : ℚ
  contextSwitches : ℕ

namespace SchedulerState

/-- The loop adds up one of the metrics, and every sum is a `double`. -/
def average (s : SchedulerState pol n) (time : Process → Int) : ℚ :=
  toDouble ((List.finRange n).foldl (fun sum p => toDouble (sum + time (s.processes p))) 0 / n)

def calculateAverages (s : SchedulerState pol n) : ℚ × ℚ × ℚ :=
  (s.average Process.turnaroundTime, s.average Process.waitingTime, s.average Process.responseTime)

def result (s : SchedulerState pol n) (name : List Char) : AlgorithmResult :=
  let (avgTurnaround, avgWaiting, avgResponse) := s.calculateAverages
  ⟨name, avgTurnaround, avgWaiting, avgResponse, countContextSwitches s.gantt⟩

end SchedulerState

def mlfqComparison (file : Option (List Char)) : Policy :=
  match comparisonConfig file with
  | ⟨config, hpos⟩ => .mlfq config hpos

/-- `copy_processes` makes every algorithm start from the workload. -/
def runComparison (file : Option (List Char)) (w : Workload n) (fuel : Nat) :
    Option (List AlgorithmResult) := do
  let fcfs ← simulateScheduler .fcfs w fuel
  let sjf ← simulateScheduler .sjf w fuel
  let stcf ← simulateScheduler .stcf w fuel
  let rr ← simulateScheduler (.rr 10) w fuel
  let mlfq ← simulateScheduler (mlfqComparison file) w fuel
  return [fcfs.result "FCFS".toList, sjf.result "SJF".toList, stcf.result "STCF".toList,
    rr.result "RR (q=10)".toList, mlfq.result "MLFQ".toList]

/-- The turnaround times of a run are its waiting times and the bursts, so that the two averages in
its row are the rounded quotients of sums that differ by the bursts. -/
def TurnaroundRow (w : Workload n) (pol : Policy) (r : AlgorithmResult) : Prop :=
  ∃ fuel, ∃ s : SchedulerState pol n, simulateScheduler pol w fuel = some s ∧
    r.avgWaiting = toDouble (s.totalWaiting / n) ∧
    r.avgTurnaround = toDouble ((s.totalWaiting + ∑ p, w.burstTime p : Int) / n)

structure Comparison (file : Option (List Char)) (w : Workload n) (results : List AlgorithmResult) :
    Prop where
  names : results.map AlgorithmResult.algorithmName =
    ["FCFS".toList, "SJF".toList, "STCF".toList, "RR (q=10)".toList, "MLFQ".toList]
  turnaround : List.Forall₂ (TurnaroundRow w) (comparisonPolicies file) results
  response : ∀ r ∈ results.take 4, 0 ≤ r.avgResponse ∧ r.avgResponse ≤ r.avgWaiting
  nonpreemptive : ∀ r ∈ results.take 2, r.avgResponse = r.avgWaiting
  roundRobin : ∀ r, results[3]? = some r → r.avgResponse ≤ (20 * (n - 1) : ℚ)
  minimal : (∀ p q, w.arrivalTime p = w.arrivalTime q) →
    ∀ best ∈ (results.take 3).tail, ∀ r ∈ results.take 4, best.avgWaiting ≤ r.avgWaiting

theorem toDouble_mono : Monotone toDouble := Rounding.roundTo_mono (by decide)

theorem toDouble_intCast {z : Int} (hz : |z| ≤ 2 ^ 53) : toDouble z = z :=
  Rounding.roundTo_intCast (by decide) hz

theorem foldl_toDouble {f : Fin n → Int} (hf : ∀ p, FitsInt (f p)) (l : List (Fin n)) (z : Int)
    (hz : |z| + 2 ^ 31 * l.length ≤ 2 ^ 53) :
    l.foldl (fun sum p => toDouble (sum + f p)) (z : ℚ) = ((z + (l.map f).sum : Int) : ℚ) := by
  induction l generalizing z with
  | nil => rw [List.foldl_nil, List.map_nil, List.sum_nil, add_zero]
  | cons p l ih =>
    have hp : |f p| ≤ 2 ^ 31 := by
      obtain ⟨hmin, hmax⟩ := hf p
      unfold intMin at hmin
      unfold intMax at hmax
      exact abs_le.mpr ⟨by omega, by omega⟩
    have hsum : |z + f p| ≤ |z| + |f p| := abs_add_le z (f p)
    rw [List.length_cons, Nat.cast_succ] at hz
    have hexact : toDouble ((z : ℚ) + f p) = ((z + f p : Int) : ℚ) := by
      rw [← Int.cast_add]
      exact toDouble_intCast (by omega)
    rw [List.foldl_cons, hexact, ih (z + f p) (by omega), List.map_cons, List.sum_cons, add_assoc]

namespace SchedulerState

variable {w : Workload n} {s s' : SchedulerState pol n} {f g : Process → Int}

structure MetricsFit (s : SchedulerState pol n) : Prop where
  turnaroundTime : ∀ p, FitsInt (s.processes p).turnaroundTime
  waitingTime : ∀ p, FitsInt (s.processes p).waitingTime
  responseTime : ∀ p, FitsInt (s.processes p).responseTime

theorem average_eq (hn : n ≤ maxProcesses) (hf : ∀ p, FitsInt (f (s.processes p))) :
    s.average f = toDouble ((∑ p, f (s.processes p) : Int) / n) := by
  have hfold := foldl_toDouble hf (List.finRange n) 0 (by
    have hcount : n ≤ 256 := hn
    rw [abs_zero, List.length_finRange]
    omega)
  rw [zero_add, ← Fin.sum_univ_def, Int.cast_zero] at hfold
  rw [average, hfold]

theorem average_le_average {pol' : Policy} {t : SchedulerState pol' n} (hn : n ≤ maxProcesses)
    (hf : ∀ p, FitsInt (f (s.processes p))) (hg : ∀ p, FitsInt (g (t.processes p)))
    (h : ∑ p, f (s.processes p) ≤ ∑ p, g (t.processes p)) : s.average f ≤ t.average g := by
  rw [average_eq hn hf, average_eq hn hg]
  refine toDouble_mono ?_
  gcongr

def asked (r : Process) : Int × Int := (r.arrivalTime, r.burstTime)

def Asks (w : Workload n) (s : SchedulerState pol n) : Prop :=
  ∀ p, asked (s.processes p) = (w.arrivalTime p, w.burstTime p)

theorem schedule_asked (q : EventQueue n) (now : Int) (r : Process) :
    asked (pol.schedule q now r).1 = asked r := by
  cases pol with
  | fcfs => rfl
  | sjf => rfl
  | stcf =>
    simp only [Policy.schedule, scheduleStcf, setFinish]
    split_ifs <;> rfl
  | rr quantumTime =>
    simp only [Policy.schedule, scheduleRr]
    split_ifs <;> rfl
  | mlfq config hpos =>
    simp only [Policy.schedule, scheduleMlfq, setFinish]
    split_ifs <;> rfl

theorem Asks.congr (h : Asks w s) (heq : ∀ p, asked (s'.processes p) = asked (s.processes p)) :
    Asks w s' := fun p => (heq p).trans (h p)

theorem asks_kept (w : Workload n) : Kept (@Asks n pol w) where
  frame h hsame := h.congr fun p =>
    congrArg₂ Prod.mk (hsame.processes.arrivalTime p) (hsame.processes.burstTime p)
  startSegment {s} h p := by
    refine h.congr fun q => ?_
    simp only [SchedulerState.startSegment]
    rcases eq_or_ne q p with rfl | hq
    · rw [Function.update_self]
      exact schedule_asked s.eventQueue s.currentTime (s.processes q)
    · rw [Function.update_of_ne hq]
  ensureFinish {s} h p time := by
    unfold SchedulerState.ensureFinish
    split
    · exact h.congr fun q => Table.modify_field asked s.processes p _ rfl q
    · exact h

theorem Reaches.asks (h : Loop.Reaches loopBody (startState pol w) s) : Asks w s :=
  (asks_kept w).reaches (fun _ => rfl) h

theorem Asks.finish (h : Asks w s) (p : Fin n) :
    (s.finish.processes p).turnaroundTime =
      (s.finish.processes p).waitingTime + w.burstTime p := by
  have hburst : (s.stampRunning.processes p).burstTime = w.burstTime p :=
    congrArg Prod.snd ((asks_kept w).stampRunning h p)
  show (s.stampRunning.processes p).finishTime - (s.stampRunning.processes p).arrivalTime =
    (s.stampRunning.processes p).finishTime - (s.stampRunning.processes p).arrivalTime -
      (s.stampRunning.processes p).burstTime + w.burstTime p
  omega

/-- Boosts leave the stamps of MLFQ within the horizon as well. -/
theorem Funded.metricsFit (hw : w.Nonneg) (h : Funded w s) (hmlfq : pol.isMlfq = true)
    (hfits : w.Fits pol) (hasks : Asks w s) (hend : s.loopBody = none) : MetricsFit s.finish := by
  have hidle : s.running = none := by
    by_contra hne
    obtain ⟨e, he, _⟩ := h.busy hne
    rw [loopBody_eq_none.mp hend] at he
    exact absurd he List.not_mem_nil
  have hfinish : s.finish = s.calculateMetrics := by rw [SchedulerState.finish, hidle]
  have hhorizon := hfits.horizon_le
  have hbounds : ∀ p, 0 ≤ w.arrivalTime p ∧ 0 ≤ w.burstTime p ∧
      w.arrivalTime p + w.burstTime p ≤ w.horizon := by
    intro p
    have hlatest := w.arrivalTime_le_latest p
    have hsum := Finset.single_le_sum (fun q _ => hw.burst q) (Finset.mem_univ p)
    exact ⟨hw.arrival p, hw.burst p, add_le_add hlatest hsum⟩
  have hmin : intMin = -intMax - 1 := by decide
  rw [hfinish]
  refine ⟨fun p => ?_, fun p => ?_, fun p => ?_⟩
  all_goals
    obtain ⟨harrival, hburst, hsum⟩ := hbounds p
    obtain ⟨hstart, hstop⟩ := h.stamped hmlfq p
    have hasked := hasks p
    simp only [asked, Prod.mk.injEq] at hasked
    simp only [calculateMetrics, hasked, FitsInt]
    omega

section Ended

variable (hw : w.Nonneg) (hpol : pol.Valid) (hboost : pol.boostPeriod ≤ 0)
  (h : Loop.Reaches loopBody (startState pol w) s) (hend : s.loopBody = none)
include hw hpol hboost h hend

theorem Reaches.responseTime_le (p : Fin n) : 0 ≤ (s.finish.processes p).responseTime ∧
    (s.finish.processes p).responseTime ≤ (s.finish.processes p).waitingTime := by
  have hc := Reaches.coherent hw hpol hboost h
  obtain ⟨d, hfirst, hstart⟩ := hc.first_of_ended hend p
  obtain ⟨d', hlast, hfinish⟩ := hc.last_of_ended hend p
  have hd := List.mem_of_mem_head? hfirst
  have hd' := List.mem_of_getLast? hlast
  have hrun := hc.runTime_nonneg d (mem_dispatchesOf.mp hd).1
  have harrived := hc.arrived d (mem_dispatchesOf.mp hd).1
  rw [(mem_dispatchesOf.mp hd).2] at harrived
  have hstop := hc.stop_le_last hlast hd
  have hle : d.time ≤ d'.stop := (le_add_of_nonneg_right hrun).trans hstop
  -- the CPU serves others, before the first segment and in all
  have hresponse := Reaches.others_served hw hpol hboost h hd harrived
    (le_add_of_nonneg_right hrun : d.time ≤ d.stop)
  have hwaiting := Reaches.others_served hw hpol hboost h hd' (harrived.trans hle) le_rfl
  have hmono : ∑ r ∈ Finset.univ.erase p, s.servedBetween r (w.arrivalTime p) d.time ≤
      ∑ r ∈ Finset.univ.erase p, s.servedBetween r (w.arrivalTime p) d'.stop :=
    Finset.sum_le_sum fun r _ => sub_le_sub_right (servedBefore_mono s.log r hle) _
  rw [hresponse, hwaiting, ← hstart, hc.servedBefore_start hend, ← hfinish,
    hc.servedBefore_finish hend] at hmono
  rw [hc.responseTime_eq hend, hc.waitingTime_eq hend]
  omega

theorem Reaches.metricsFit (hfits : w.RunFits) : MetricsFit s.finish := by
  have hc := Reaches.coherent hw hpol hboost h
  have htimes := (runTimesFit_iff hw hpol hboost).mpr hfits s h
  have hlow : intMin ≤ 0 := by decide
  have hturnaround : ∀ p, (s.finish.processes p).turnaroundTime ≤ intMax := by
    intro p
    have hfinish := (htimes.finishTime p).2
    have harrival := hw.arrival p
    rw [hc.finish_eq hend]
    show (s.processes p).finishTime - (s.processes p).arrivalTime ≤ intMax
    rw [(hc.recorded p).arrivalTime]
    omega
  have hall : ∀ p, 0 ≤ (s.finish.processes p).responseTime ∧
      (s.finish.processes p).responseTime ≤ (s.finish.processes p).waitingTime ∧
      (s.finish.processes p).waitingTime ≤ (s.finish.processes p).turnaroundTime := by
    intro p
    obtain ⟨hnonneg, hle⟩ := Reaches.responseTime_le hw hpol hboost h hend p
    have hburst := hw.burst p
    have hsum := (Reaches.asks h).finish p
    exact ⟨hnonneg, hle, by omega⟩
  refine ⟨fun p => ?_, fun p => ?_, fun p => ?_⟩
  all_goals
    have hp := hall p
    have hmax := hturnaround p
    exact ⟨by omega, by omega⟩

theorem Reaches.responseTime_eq_waitingTime (hnon : pol.Nonpreemptive) (p : Fin n) :
    (s.finish.processes p).responseTime = (s.finish.processes p).waitingTime := by
  have hc := Reaches.coherent hw hpol hboost h
  have hone := hc.own_of_nodup hend (Reaches.dispatched_nodup hw hpol hboost hnon h) p
  rw [hc.responseTime_eq hend, hc.waitingTime_eq hend, hone.2]
  omega

end Ended

end SchedulerState

open SchedulerState

variable {w : Workload n} {file : Option (List Char)} {fuel : Nat} {a : Int}
  {results : List AlgorithmResult}

section Row

variable {s : SchedulerState pol n} (hsim : simulateScheduler pol w fuel = some s)
include hsim

theorem metricsFit_of_runFits (hw : w.Nonneg) (hpol : pol.Valid) (hboost : pol.boostPeriod ≤ 0)
    (hfits : w.RunFits) : s.MetricsFit := by
  obtain ⟨t, hreach, hend, rfl⟩ := simulateScheduler_eq_some hsim
  exact Reaches.metricsFit hw hpol hboost hreach hend hfits

theorem metricsFit_of_mlfq (hw : w.Nonneg) (hpol : pol.Valid) (hmlfq : pol.isMlfq = true)
    (hfits : w.Fits pol) : s.MetricsFit := by
  obtain ⟨t, hreach, hend, rfl⟩ := simulateScheduler_eq_some hsim
  exact (Reaches.funded hw hpol hreach).metricsFit hw hmlfq hfits (Reaches.asks hreach) hend

theorem turnaroundRow (hn : n ≤ maxProcesses) (hfits : s.MetricsFit) (name : List Char) :
    TurnaroundRow w pol (s.result name) := by
  refine ⟨fuel, s, hsim, average_eq hn hfits.waitingTime, ?_⟩
  have haverage := average_eq hn hfits.turnaroundTime
  obtain ⟨t, hreach, -, rfl⟩ := simulateScheduler_eq_some hsim
  have hsum : ∑ p, (t.finish.processes p).turnaroundTime =
      t.finish.totalWaiting + ∑ p, w.burstTime p := by
    rw [totalWaiting, ← Finset.sum_add_distrib]
    exact Finset.sum_congr rfl fun p _ => (Reaches.asks hreach).finish p
  rwa [hsum] at haverage

theorem average_response (hn : n ≤ maxProcesses) (hfits : s.MetricsFit) (hw : w.Nonneg)
    (hpol : pol.Valid) (hboost : pol.boostPeriod ≤ 0) :
    0 ≤ s.average Process.responseTime ∧
      s.average Process.responseTime ≤ s.average Process.waitingTime := by
  have haverage := average_eq hn hfits.responseTime
  have hle := fun h => average_le_average hn hfits.responseTime hfits.waitingTime h
  obtain ⟨t, hreach, hend, rfl⟩ := simulateScheduler_eq_some hsim
  have hresponse := Reaches.responseTime_le hw hpol hboost hreach hend
  have hpos : 0 ≤ ∑ p, (t.finish.processes p).responseTime :=
    Finset.sum_nonneg fun p _ => (hresponse p).1
  refine ⟨?_, hle (Finset.sum_le_sum fun p _ => (hresponse p).2)⟩
  have hzero := toDouble_intCast (z := 0) (by decide)
  rw [Int.cast_zero] at hzero
  rw [haverage, ← hzero]
  exact toDouble_mono (div_nonneg (Int.cast_nonneg hpos) (Nat.cast_nonneg n))

theorem average_nonpreemptive (hn : n ≤ maxProcesses) (hfits : s.MetricsFit) (hw : w.Nonneg)
    (hpol : pol.Valid) (hboost : pol.boostPeriod ≤ 0) (hnon : pol.Nonpreemptive) :
    s.average Process.responseTime = s.average Process.waitingTime := by
  rw [average_eq hn hfits.responseTime, average_eq hn hfits.waitingTime]
  obtain ⟨t, hreach, hend, rfl⟩ := simulateScheduler_eq_some hsim
  rw [Finset.sum_congr rfl fun p _ =>
    Reaches.responseTime_eq_waitingTime hw hpol hboost hreach hend hnon p]

theorem average_waiting_le (hn : n ≤ maxProcesses) (hfits : s.MetricsFit) (hw : w.Nonneg)
    (htogether : ∀ p, w.arrivalTime p = a) (hsort : pol.sortByBurstTime = true) {pol' : Policy}
    {s' : SchedulerState pol' n} (hsim' : simulateScheduler pol' w fuel = some s')
    (hfits' : s'.MetricsFit) (hpol' : pol'.Valid) (hboost' : pol'.boostPeriod ≤ 0) :
    s.average Process.waitingTime ≤ s'.average Process.waitingTime := by
  refine average_le_average hn hfits.waitingTime hfits'.waitingTime ?_
  obtain ⟨t, hreach, hend, rfl⟩ := simulateScheduler_eq_some hsim
  obtain ⟨t', hreach', hend', rfl⟩ := simulateScheduler_eq_some hsim'
  have hmin := InLine.totalWaiting_eq hw hsort htogether hreach hend
  have hle := (Reaches.coherent hw hpol' hboost' hreach').pairMin_le_totalWaiting hend' htogether
  exact hmin.le.trans hle

end Row

theorem average_roundRobin {s : SchedulerState (.rr 10) n} (hn : 0 < n) (hmax : n ≤ maxProcesses)
    (hsim : simulateScheduler (.rr 10) w fuel = some s) (hfits : s.MetricsFit) (hw : w.Nonneg) :
    s.average Process.responseTime ≤ (20 * (n - 1) : ℚ) := by
  have hquantum : (1 : Int) ≤ 10 := by decide
  rw [average_eq hmax hfits.responseTime]
  obtain ⟨t, hreach, hend, rfl⟩ := simulateScheduler_eq_some hsim
  have hc :=
    Reaches.coherent hw (Policy.rr_valid hquantum) (Policy.rr_boostPeriod_le 10) hreach
  have hsum : ∑ p, (t.finish.processes p).responseTime ≤ n * (20 * ((n : Int) - 1)) := by
    have hle := Finset.sum_le_card_nsmul Finset.univ
      (fun p => (t.finish.processes p).responseTime) (20 * ((n : Int) - 1)) fun p _ => by
        have hstart := (Reaches.prompt hw hquantum hreach).startTime_le hc hend p
        rw [hc.finish_eq hend] at hstart
        rw [hc.responseTime_eq hend]
        have hsame : (t.calculateMetrics.processes p).startTime = (t.processes p).startTime := rfl
        omega
    rwa [Finset.card_univ, Fintype.card_fin, nsmul_eq_mul] at hle
  have hbound : (20 * (n - 1) : ℚ) = ((20 * ((n : Int) - 1) : Int) : ℚ) := by push_cast; rfl
  have hexact : |20 * ((n : Int) - 1)| ≤ 2 ^ 53 := by
    have hcount : n ≤ 256 := hmax
    exact abs_le.mpr ⟨by omega, by omega⟩
  rw [hbound, ← toDouble_intCast hexact]
  refine toDouble_mono ((div_le_iff₀ (Nat.cast_pos.mpr hn)).mpr ?_)
  rw [mul_comm]
  exact_mod_cast hsum

theorem runComparison_eq_some (h : runComparison file w fuel = some results) :
    ∃ fcfs sjf stcf rr mlfq, simulateScheduler .fcfs w fuel = some fcfs ∧
      simulateScheduler .sjf w fuel = some sjf ∧ simulateScheduler .stcf w fuel = some stcf ∧
      simulateScheduler (.rr 10) w fuel = some rr ∧
      simulateScheduler (mlfqComparison file) w fuel = some mlfq ∧
      results = [fcfs.result "FCFS".toList, sjf.result "SJF".toList, stcf.result "STCF".toList,
        rr.result "RR (q=10)".toList, mlfq.result "MLFQ".toList] := by
  simp only [runComparison, Option.bind_eq_bind, Option.bind_eq_some_iff] at h
  obtain ⟨fcfs, h₁, sjf, h₂, stcf, h₃, rr, h₄, mlfq, h₅, hresults⟩ := h
  exact ⟨fcfs, sjf, stcf, rr, mlfq, h₁, h₂, h₃, h₄, h₅, (Option.some.inj hresults).symm⟩

theorem eventually_simulateScheduler (h : ∃ fuel s, simulateScheduler pol w fuel = some s) :
    ∀ᶠ fuel in Filter.atTop, ∃ s, simulateScheduler pol w fuel = some s := by
  obtain ⟨fuel, s, hsim⟩ := h
  obtain ⟨t, hrun, rfl⟩ := Option.map_eq_some_iff.mp hsim
  filter_upwards [Filter.eventually_ge_atTop fuel] with fuel' hle
  exact ⟨t.finish, by rw [simulateScheduler, Loop.run_mono hrun hle, Option.map_some]⟩

theorem runComparison_returns (hw : w.Nonneg) (hvalid : (mlfqComparison file).Valid) :
    ∃ fuel results, runComparison file w fuel = some results := by
  have hrr : (Policy.rr 10).Valid := Policy.rr_valid (by decide)
  have hmem : mlfqComparison file ∈ comparisonPolicies file := by
    simp [comparisonPolicies, mlfqComparison]
  have hall : ∀ᶠ fuel in Filter.atTop, ∃ results, runComparison file w fuel = some results := by
    filter_upwards [
      eventually_simulateScheduler (simulateScheduler_returns hw Policy.fcfs_valid (by decide)),
      eventually_simulateScheduler (simulateScheduler_returns hw Policy.sjf_valid (by decide)),
      eventually_simulateScheduler (simulateScheduler_returns hw Policy.stcf_valid (by decide)),
      eventually_simulateScheduler (simulateScheduler_returns hw hrr (by decide)),
      eventually_simulateScheduler (simulateScheduler_ends hw hmem hvalid)] with fuel h₁ h₂ h₃ h₄ h₅
    obtain ⟨fcfs, h₁⟩ := h₁
    obtain ⟨sjf, h₂⟩ := h₂
    obtain ⟨stcf, h₃⟩ := h₃
    obtain ⟨rr, h₄⟩ := h₄
    obtain ⟨mlfq, h₅⟩ := h₅
    refine ⟨[fcfs.result "FCFS".toList, sjf.result "SJF".toList, stcf.result "STCF".toList,
      rr.result "RR (q=10)".toList, mlfq.result "MLFQ".toList], ?_⟩
    rw [runComparison, h₁, h₂, h₃, h₄, h₅]
    rfl
  exact hall.exists

/-- How the rows of the table compare, on every workload that keeps the times within `int` and with
every valid configuration of MLFQ. -/
theorem runComparison_comparison (hw : w.Nonneg) (hn : 0 < n) (hmax : n ≤ maxProcesses)
    (hvalid : (mlfqComparison file).Valid) (hfits : w.Fits (mlfqComparison file)) :
    (∃ fuel results, runComparison file w fuel = some results) ∧
      ∀ fuel results, runComparison file w fuel = some results → Comparison file w results := by
  refine ⟨runComparison_returns hw hvalid, fun fuel results hrun => ?_⟩
  obtain ⟨fcfs, sjf, stcf, rr, mlfq, h₁, h₂, h₃, h₄, h₅, rfl⟩ := runComparison_eq_some hrun
  have hrr : (Policy.rr 10).Valid := Policy.rr_valid (by decide)
  have hruns := hfits.runFits hw
  have f₁ := metricsFit_of_runFits h₁ hw Policy.fcfs_valid (by decide) hruns
  have f₂ := metricsFit_of_runFits h₂ hw Policy.sjf_valid (by decide) hruns
  have f₃ := metricsFit_of_runFits h₃ hw Policy.stcf_valid (by decide) hruns
  have f₄ := metricsFit_of_runFits h₄ hw hrr (by decide) hruns
  have f₅ := metricsFit_of_mlfq h₅ hw hvalid rfl hfits
  have hrow : ∀ {P : AlgorithmResult → Prop} {r₁ r₂ r₃ r₄ : AlgorithmResult},
      P r₁ → P r₂ → P r₃ → P r₄ → ∀ r ∈ [r₁, r₂, r₃, r₄], P r := by
    intro P r₁ r₂ r₃ r₄ p₁ p₂ p₃ p₄
    simp [p₁, p₂, p₃, p₄]
  refine {
    names := rfl, turnaround := ?_, response := ?_, nonpreemptive := ?_, roundRobin := ?_,
    minimal := ?_ }
  · exact .cons (turnaroundRow h₁ hmax f₁ _) (.cons (turnaroundRow h₂ hmax f₂ _)
      (.cons (turnaroundRow h₃ hmax f₃ _) (.cons (turnaroundRow h₄ hmax f₄ _)
        (.cons (turnaroundRow h₅ hmax f₅ _) .nil))))
  · exact hrow (average_response h₁ hmax f₁ hw Policy.fcfs_valid (by decide))
      (average_response h₂ hmax f₂ hw Policy.sjf_valid (by decide))
      (average_response h₃ hmax f₃ hw Policy.stcf_valid (by decide))
      (average_response h₄ hmax f₄ hw hrr (by decide))
  · intro r hr
    simp only [List.take_succ_cons, List.take_zero, List.mem_cons, List.not_mem_nil, or_false] at hr
    obtain rfl | rfl := hr
    · exact average_nonpreemptive h₁ hmax f₁ hw Policy.fcfs_valid (by decide) trivial
    · exact average_nonpreemptive h₂ hmax f₂ hw Policy.sjf_valid (by decide) trivial
  · intro r hr
    obtain rfl := Option.some.inj hr
    exact average_roundRobin hn hmax h₄ f₄ hw
  · intro htogether best hbest
    have ha : ∀ p, w.arrivalTime p = w.arrivalTime ⟨0, hn⟩ := fun p => htogether p _
    have hbest : best = sjf.result "SJF".toList ∨ best = stcf.result "STCF".toList := by
      simpa using hbest
    obtain rfl | rfl := hbest
    · exact hrow (average_waiting_le h₂ hmax f₂ hw ha rfl h₁ f₁ Policy.fcfs_valid (by decide))
        (average_waiting_le h₂ hmax f₂ hw ha rfl h₂ f₂ Policy.sjf_valid (by decide))
        (average_waiting_le h₂ hmax f₂ hw ha rfl h₃ f₃ Policy.stcf_valid (by decide))
        (average_waiting_le h₂ hmax f₂ hw ha rfl h₄ f₄ hrr (by decide))
    · exact hrow (average_waiting_le h₃ hmax f₃ hw ha rfl h₁ f₁ Policy.fcfs_valid (by decide))
        (average_waiting_le h₃ hmax f₃ hw ha rfl h₂ f₂ Policy.sjf_valid (by decide))
        (average_waiting_le h₃ hmax f₃ hw ha rfl h₃ f₃ Policy.stcf_valid (by decide))
        (average_waiting_le h₃ hmax f₃ hw ha rfl h₄ f₄ hrr (by decide))

def comparisonText : List Char := "Q0 4 8\nQ1 -1 -1\n".toList

theorem comparisonText_valid : (mlfqComparison (some comparisonText)).Valid :=
  @Policy.mlfq_valid (comparisonConfig (some comparisonText)).1
    (comparisonConfig (some comparisonText)).2 (by decide +kernel)

def thirdsWorkload : Workload 3 where
  pid := ![['A'], ['B'], ['C']]
  arrivalTime := ![0, 0, 0]
  burstTime := ![1, 1, 2]

theorem thirdsWorkload_nonneg : thirdsWorkload.Nonneg := ⟨by decide, by decide⟩

theorem runComparison_comparison_thirds :
    ∃ fuel results, runComparison (some comparisonText) thirdsWorkload fuel = some results ∧
      Comparison (some comparisonText) thirdsWorkload results := by
  obtain ⟨⟨fuel, results, hrun⟩, hall⟩ := runComparison_comparison thirdsWorkload_nonneg (by decide)
    (by decide) comparisonText_valid (by decide +kernel)
  exact ⟨fuel, results, hrun, hall fuel results hrun⟩

end OsLab.Sched
