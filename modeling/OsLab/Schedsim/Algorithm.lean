import OsLab.Schedsim.Chart

/-! What the tick-stepped schedulers have in common: when they return, how long their charts are, and
when their CPU is busy. -/

namespace OsLab.Schedsim

open Sched

variable {n : Nat}

def scheduleStcf (w : Workload n) (side : MergeSide) (fuel : Nat) : Option (SchedulerState n) :=
  (Loop.run (Stcf.round side) fuel (Stcf.start w)).map Stcf.state

/-- What `main` chooses from, with the quantum of the command line and the side of the conflicts in
`minheap.c`. -/
inductive Algorithm where
  | fcfs
  | sjf (side : MergeSide)
  | stcf (side : MergeSide)
  | rr (quantumTime : Int)

namespace Algorithm

def schedule (w : Workload n) (fuel : Nat) : Algorithm → Option (SchedulerState n)
  | .fcfs => scheduleFcfs w fuel
  | .sjf side => scheduleSjf w side fuel
  | .stcf side => scheduleStcf w side fuel
  | .rr quantumTime => scheduleRr w quantumTime fuel

def State (n : Nat) : Algorithm → Type
  | .fcfs => Fcfs n
  | .sjf _ => Sjf n
  | .stcf _ => Stcf n
  | .rr _ => Rr n

def start (w : Workload n) : (alg : Algorithm) → alg.State n
  | .fcfs => Fcfs.start w
  | .sjf _ => Sjf.start w
  | .stcf _ => Stcf.start w
  | .rr _ => Rr.start w

def round : (alg : Algorithm) → alg.State n → Option (alg.State n)
  | .fcfs => Fcfs.round
  | .sjf side => Sjf.round side
  | .stcf side => Stcf.round side
  | .rr quantumTime => Rr.round quantumTime

def state : (alg : Algorithm) → alg.State n → SchedulerState n
  | .fcfs => Fcfs.state
  | .sjf _ => Sjf.state
  | .stcf _ => Stcf.state
  | .rr _ => Rr.state

def runs : (alg : Algorithm) → alg.State n → Option (Fin n)
  | .fcfs => Fcfs.runs
  | .sjf side => Sjf.runs side
  | .stcf side => Stcf.runs side
  | .rr quantumTime => Rr.runs quantumTime

def Views (w : Workload n) : (alg : Algorithm) → alg.State n → Ticks (Fin n) → Prop
  | .fcfs => Fcfs.Views w
  | .sjf _ => Sjf.Views w
  | .stcf _ => Stcf.Views w
  | .rr _ => Rr.Views w

def busyTimes (w : Workload n) (alg : Algorithm) : Set Int :=
  {u | ∃ s, Loop.Reaches alg.round (alg.start w) s ∧ (alg.state s).currentTime = u ∧
    (alg.runs s).isSome}

def chartBound (w : Workload n) : Algorithm → Int
  | .fcfs => n
  | .sjf _ => n
  | .stcf _ => ∑ p, w.burstTime p
  | .rr quantumTime => if 1 ≤ quantumTime then ∑ p, (w.burstTime p + quantumTime - 1) / quantumTime
      else n

section Algorithm

variable {alg : Algorithm} {w : Workload n} {s : SchedulerState n} {fuel : Nat}

theorem schedule_eq (w : Workload n) (fuel : Nat) (alg : Algorithm) :
    alg.schedule w fuel = (Loop.run alg.round fuel (alg.start w)).map alg.state := by
  cases alg <;> rfl

theorem ticking (w : Workload n) (alg : Algorithm) : Ticking w.arrivalTime unknownTime alg.round
    (fun s => (alg.state s).currentTime) alg.runs (alg.Views w) := by
  cases alg with
  | fcfs => exact Fcfs.ticking w
  | sjf side => exact Sjf.ticking w side
  | stcf side => exact Stcf.ticking w side
  | rr quantumTime => exact Rr.ticking w quantumTime

theorem views_start (w : Workload n) (alg : Algorithm) :
    alg.Views w (alg.start w) (Ticks.init w.burstTime unknownTime) := by
  cases alg with
  | fcfs => exact Fcfs.views_start w
  | sjf side => exact Sjf.views_start w
  | stcf side => exact seen_start w
  | rr quantumTime => exact Rr.views_start w

theorem Views.seen {s : alg.State n} {t : Ticks (Fin n)} (h : alg.Views w s t) :
    ∃ unqueued ready count, Seen w (alg.state s) unqueued ready count t := by
  cases alg with
  | fcfs => exact ⟨_, _, _, Fcfs.Views.toSeen h⟩
  | sjf side => exact ⟨_, _, _, Sjf.Views.toSeen h⟩
  | stcf side => exact ⟨_, _, _, h⟩
  | rr quantumTime => exact ⟨_, _, _, Rr.Views.toSeen h⟩

/-- A scheduler returns exactly if every burst is one unit long at least: of a process that asks for
less, `remaining_time` is never 0 after a unit. -/
theorem returns_iff (w : Workload n) (alg : Algorithm) :
    (∃ fuel s, alg.schedule w fuel = some s) ↔ ∀ p, 1 ≤ w.burstTime p := by
  rw [← (ticking w alg).terminates_iff (views_start w alg)]
  constructor
  · rintro ⟨fuel, s, hrun⟩
    rw [schedule_eq] at hrun
    obtain ⟨a, hloop, -⟩ := Option.map_eq_some_iff.mp hrun
    exact ⟨fuel, a, hloop⟩
  · rintro ⟨fuel, a, hloop⟩
    exact ⟨fuel, alg.state a, by rw [schedule_eq, hloop, Option.map_some]⟩

theorem schedule_ended (hrun : alg.schedule w fuel = some s) : ∃ a t,
    Loop.Reaches alg.round (alg.start w) a ∧ alg.state a = s ∧ alg.Views w a t ∧
      t.Placed w.burstTime ∧ ∀ p, p ∈ t.finished := by
  rw [schedule_eq] at hrun
  obtain ⟨a, hloop, rfl⟩ := Option.map_eq_some_iff.mp hrun
  obtain ⟨hreach, hend⟩ := Loop.run_reaches hloop
  obtain ⟨t, hviews, hplaced⟩ := (ticking w alg).reaches_views (views_start w alg) hreach
  exact ⟨a, t, hreach, rfl, hviews, hplaced,
    hplaced.mem_finished (((ticking w alg).ended hviews).mp hend)⟩

theorem finished_card_le {t : Ticks (Fin n)} (h : t.Placed w.burstTime) : t.finished.card ≤ n := by
  have hcard := congrArg Multiset.card h.placed
  rw [Multiset.card_add, Finset.card_val, Finset.card_univ, Fintype.card_fin] at hcard
  omega

theorem gantt_length_le (hrun : alg.schedule w fuel = some s) :
    (s.gantt.length : Int) ≤ alg.chartBound w := by
  obtain ⟨a, t, hreach, rfl, hviews, hplaced, hall⟩ := schedule_ended hrun
  have hcard := finished_card_le hplaced
  obtain ⟨_, _, _, hseen⟩ := hviews.seen
  have hdone : ∀ p, ((alg.state a).processes p).remainingTime = 0 := fun p =>
    (congrFun hseen.left p).symm.trans (hplaced.finished_left p (hall p))
  cases alg with
  | fcfs =>
    have hviews : Fcfs.Views w a t := hviews
    have hlength := Fcfs.reaches_gantt hreach
    rw [← hviews.count] at hlength
    exact Int.ofNat_le.mpr (hlength.trans_le hcard)
  | sjf side =>
    have hviews : Sjf.Views w a t := hviews
    have hlength := Sjf.reaches_gantt hreach
    rw [← hviews.count] at hlength
    exact Int.ofNat_le.mpr (hlength.trans_le hcard)
  | stcf side =>
    have hcharted : Stcf.Charted w a := Stcf.reaches_charted hreach
    have hopened := Stcf.opened_nonneg a
    have hsum : ∑ p, (a.state.processes p).remainingTime = 0 :=
      Finset.sum_eq_zero fun p _ => hdone p
    unfold Stcf.Charted at hcharted
    show (a.state.gantt.length : Int) ≤ ∑ p, w.burstTime p
    omega
  | rr quantumTime =>
    have hviews : Rr.Views w a t := hviews
    show (a.state.gantt.length : Int) ≤ if 1 ≤ quantumTime then _ else _
    split_ifs with hquantum
    · exact ((Rr.reaches_charted hquantum hreach).length_eq hquantum hviews hplaced hall).le
    · have hlength := Rr.reaches_gantt (by omega) hreach
      rw [← hviews.count] at hlength
      exact Int.ofNat_le.mpr (hlength.trans_le hcard)

theorem schedule_complete (harrival : ∀ p, 0 ≤ w.arrivalTime p) (hburst : ∀ p, 1 ≤ w.burstTime p)
    (hrun : alg.schedule w fuel = some s) : ∃ t log unqueued ready count,
      Seen w s unqueued ready count t ∧ Ticks.Inv w.arrivalTime w.burstTime unknownTime t log ∧
      (∀ p, p ∈ t.finished) ∧ frontier log = s.currentTime ∧
      (∀ p, served log p = w.burstTime p) ∧ busy log = alg.busyTimes w := by
  rw [schedule_eq] at hrun
  obtain ⟨a, hloop, rfl⟩ := Option.map_eq_some_iff.mp hrun
  obtain ⟨t, log, hviews, hinv, hall, hfrontier, hserved, hbusy⟩ :=
    (ticking w alg).complete (by decide) harrival hburst (views_start w alg) hloop
  obtain ⟨unqueued, ready, count, hseen⟩ := hviews.seen
  exact ⟨t, log, unqueued, ready, count, hseen, hinv, hall, hfrontier, hserved, hbusy⟩

end Algorithm
end Algorithm

/-- If the chart has room for a run, a scheduler returns with its chart inside of the array exactly if
every burst is one unit long at least. -/
theorem schedule_returns_iff {w : Workload n} (alg : Algorithm)
    (hchart : alg.chartBound w ≤ maxGanttEntries) :
    (∃ fuel s, alg.schedule w fuel = some s ∧ s.gantt.length ≤ maxGanttEntries) ↔
      ∀ p, 1 ≤ w.burstTime p := by
  rw [← alg.returns_iff w]
  constructor
  · rintro ⟨fuel, s, hrun, -⟩
    exact ⟨fuel, s, hrun⟩
  · rintro ⟨fuel, s, hrun⟩
    exact ⟨fuel, s, hrun, Int.ofNat_le.mp ((Algorithm.gantt_length_le hrun).trans hchart)⟩

/-- Round robin cuts the bursts 3 and 2 into three slices of two units at most. -/
theorem schedule_returns_iff_sample :
    ∃ fuel s, Algorithm.schedule sampleWorkload fuel (.rr 2) = some s ∧
      s.gantt.length ≤ maxGanttEntries :=
  (schedule_returns_iff (.rr 2) (by decide)).mpr (by decide)

def SchedulerState.lastFinish (s : SchedulerState n) : WithBot Int :=
  (Finset.univ.image fun p => (s.processes p).finishTime).max

section Complete

variable {w : Workload n} {s : SchedulerState n} {t : Ticks (Fin n)} {log : List (Segment (Fin n))}
  {unqueued ready : List (Fin n)} {count : Nat}

theorem Seen.lastFinish_eq [NeZero n] (h : Seen w s unqueued ready count t)
    (hinv : Ticks.Inv w.arrivalTime w.burstTime unknownTime t log) (hall : ∀ p, p ∈ t.finished) :
    s.lastFinish = frontier log := by
  have hstop : ∀ p, t.stop p = (s.processes p).finishTime := congrFun h.stop
  have hne : log ≠ [] := by
    obtain ⟨_, d, hd, _⟩ := hinv.cpu.finished_done 0 (hall 0)
    exact List.ne_nil_of_mem hd
  refine le_antisymm (Finset.max_le fun u hu => ?_) ?_
  · obtain ⟨p, _, rfl⟩ := Finset.mem_image.mp hu
    rw [← hstop]
    exact WithBot.coe_le_coe.mpr (hinv.stop_le (hall p))
  · obtain ⟨p, hp⟩ := hinv.exists_stop hne hall
    rw [← hp, hstop]
    exact Finset.le_max (Finset.mem_image_of_mem _ (Finset.mem_univ p))

end Complete

/-- The tick-stepped schedulers keep the CPU busy at the times at which the event-driven simulator
does under every policy without boosts, and their last processes finish together. -/
theorem schedule_busyTimes {w : Workload n} (harrival : ∀ p, 0 ≤ w.arrivalTime p)
    (hburst : ∀ p, 1 ≤ w.burstTime p) (alg : Algorithm)
    (hchart : alg.chartBound w ≤ maxGanttEntries) (pol : Policy) (hpol : pol.Valid)
    (hboost : pol.boostPeriod ≤ 0) :
    (∃ fuel s, alg.schedule w fuel = some s ∧ s.gantt.length ≤ maxGanttEntries) ∧
      (∃ fuel s, simulateScheduler pol w fuel = some s) ∧
      ∀ fuel s fuel' s', alg.schedule w fuel = some s → simulateScheduler pol w fuel' = some s' →
        alg.busyTimes w = s'.busyUnits ∧ s.lastFinish = s'.lastFinish := by
  have hw : w.Nonneg := ⟨harrival, fun p => Int.one_nonneg.trans (hburst p)⟩
  obtain ⟨fuel, s, hrun⟩ := (alg.returns_iff w).mpr hburst
  refine ⟨⟨fuel, s, hrun, Int.ofNat_le.mp ((Algorithm.gantt_length_le hrun).trans hchart)⟩,
    SchedulerState.simulateScheduler_returns hw hpol hboost, fun fuel s fuel' s' hrun hsim => ?_⟩
  obtain ⟨t, log, _, _, _, hseen, hinv, hall, _, hserved, hbusy⟩ :=
    Algorithm.schedule_complete harrival hburst hrun
  obtain ⟨a, hc, hend, hbusy', hlast'⟩ := SchedulerState.simulateScheduler_ended hw hpol hboost hsim
  have htimeline := hinv.cpu.timeline
  constructor
  · rw [← hbusy, hbusy', SchedulerState.busyUnits_eq]
    exact htimeline.busy_unique harrival hc.cpu.timeline hserved (hc.served_of_ended hend)
  · rw [hlast']
    rcases Nat.eq_zero_or_pos n with rfl | hn
    · simp [SchedulerState.lastFinish, Sched.SchedulerState.lastFinish]
    · have : NeZero n := ⟨hn.ne'⟩
      rw [hseen.lastFinish_eq hinv hall, hc.lastFinish_eq hend]
      exact congrArg _ (htimeline.frontier_unique harrival hc.cpu.timeline hserved
        (hc.served_of_ended hend) (fun p => (hinv.cpu.finished_done p (hall p)).2) (hc.logged hend))

theorem schedule_busyTimes_sample :
    (∃ fuel s, Algorithm.schedule sampleWorkload fuel (.rr 2) = some s ∧
        s.gantt.length ≤ maxGanttEntries) ∧
      (∃ fuel s, simulateScheduler .stcf sampleWorkload fuel = some s) ∧
      ∀ fuel s fuel' s', Algorithm.schedule sampleWorkload fuel (.rr 2) = some s →
        simulateScheduler .stcf sampleWorkload fuel' = some s' →
          Algorithm.busyTimes sampleWorkload (.rr 2) = s'.busyUnits ∧
            s.lastFinish = s'.lastFinish :=
  schedule_busyTimes (by decide) (by decide) (.rr 2) (by decide) .stcf trivial (by decide)

end OsLab.Schedsim
