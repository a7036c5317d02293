import OsLab.Foundation.Adjacent
import OsLab.Sched.Kept

/-! The context switches that `compare.c` counts in the Gantt chart, and those of the run that the
chart is of. -/

namespace OsLab.Sched

variable {n : Nat} {pol : Policy}

/-- `name[0]`, which is the terminating NUL if the name is empty. -/
def firstChar (name : List Char) : Char := name.headD '\x00'

def countContextSwitches (g : Gantt) : Nat :=
  (adjacent g.entries).countP fun pair => firstChar pair.2.name ≠ firstChar pair.1.name

def shown (ds : List (Dispatch n)) : List (Dispatch n) := ds.filter fun d => 0 < d.runTime

namespace SchedulerState

def contextSwitches (s : SchedulerState pol n) : Nat :=
  (adjacent (shown s.dispatches)).countP fun pair => pair.1.process ≠ pair.2.process

/-- The switches of the run are all in the chart, and between pids that differ in their first
character. -/
def SwitchesShown (w : Workload n) (s : SchedulerState pol n) : Prop :=
  ∀ i pair, (adjacent (shown s.dispatches))[i]? = some pair → pair.1.process ≠ pair.2.process →
    i + 1 < maxGanttEntries ∧ firstChar (w.pid pair.1.process) ≠ firstChar (w.pid pair.2.process)

end SchedulerState

/-- The configuration used if `workloads/mlfq_config.txt` is not loaded. -/
def fallbackConfig : MLFQConfig where
  levels := Function.update (Function.update (Function.update (fun _ => ⟨0, 0, 0⟩)
    0 ⟨0, 10, 50⟩) 1 ⟨0, 30, 150⟩) 2 ⟨0, -1, -1⟩
  numLevels := 3
  boostPeriod := 200
  numLevels_le := by decide

/-- The argument is the text of `workloads/mlfq_config.txt`. -/
def comparisonConfig (file : Option (List Char)) :
    { config : MLFQConfig // 0 < config.numLevels } :=
  match h : loadMlfqConfig file with
  | .ok config => ⟨config, numLevels_pos_of_load h⟩
  | .error _ => ⟨fallbackConfig, by decide⟩

def comparisonPolicies (file : Option (List Char)) : List Policy :=
  [.fcfs, .sjf, .stcf, .rr 10, .mlfq (comparisonConfig file).1 (comparisonConfig file).2]

def chartEntry (w : Workload n) (d : Dispatch n) : GanttEntry :=
  ⟨(w.pid d.process).take (pidLength - 1), d.time, d.stop⟩

/-- The chart holds the first dispatches with a positive run time, as many as it has room for. -/
structure Charted (w : Workload n) (s : SchedulerState pol n) : Prop where
  pid : ∀ p, (s.processes p).pid = (w.pid p).take (pidLength - 1)
  entries : s.gantt.entries = ((shown s.dispatches).take maxGanttEntries).map (chartEntry w)

section Chart

open SchedulerState

variable {w : Workload n} {s s' : SchedulerState pol n}

theorem schedule_pid (q : EventQueue n) (now : Int) (r : Process) :
    (pol.schedule q now r).1.pid = r.pid := by
  cases pol with
  | fcfs => rfl
  | sjf => rfl
  | stcf =>
    simp only [Policy.schedule, scheduleStcf, setFinish]
    split_ifs <;> rfl
  | rr quantumTime =>
    simp only [Policy.schedule, scheduleRr]
    split_ifs <;> rfl
  | mlfq config hpos =>
    simp only [Policy.schedule, scheduleMlfq, setFinish]
    split_ifs <;> rfl

theorem SameTimes.pid {ps ps' : Table n} (h : SameTimes ps ps') (p : Fin n) :
    (ps' p).pid = (ps p).pid := (congrArg Process.pid (h p) :)

theorem Charted.congr (h : Charted w s) (hpid : ∀ p, (s'.processes p).pid = (s.processes p).pid)
    (hgantt : s'.gantt = s.gantt) (hdispatches : s'.dispatches = s.dispatches) : Charted w s' :=
  ⟨fun p => (hpid p).trans (h.pid p), by rw [hgantt, hdispatches, h.entries]⟩

theorem appendGanttEntry_entries (g : Gantt) (r : Process) (start runTime : Int) :
    (appendGanttEntry g r start runTime).entries =
      if runTime ≤ 0 then g.entries
      else (g.entries ++ [GanttEntry.mk (r.pid.take (pidLength - 1)) start (start + runTime)]).take
        maxGanttEntries := by
  have hsize := g.size_le
  unfold appendGanttEntry
  by_cases hrun : runTime ≤ 0
  · rw [dif_pos (Or.inl hrun), if_pos hrun]
  · rw [if_neg hrun]
    by_cases hfull : maxGanttEntries ≤ g.entries.length
    · rw [dif_pos (Or.inr hfull), List.take_append_of_le_length hfull, List.take_of_length_le hsize]
    · rw [dif_neg (not_or.mpr ⟨hrun, hfull⟩)]
      refine (List.take_of_length_le ?_).symm
      rw [List.length_append, List.length_singleton]
      omega

theorem shown_concat (ds : List (Dispatch n)) (d : Dispatch n) :
    shown (ds ++ [d]) = if d.runTime ≤ 0 then shown ds else shown ds ++ [d] := by
  unfold shown
  rw [List.filter_append]
  by_cases hrun : d.runTime ≤ 0
  · rw [if_pos hrun, List.filter_cons_of_neg (by simpa using hrun), List.filter_nil, List.append_nil]
  · rw [if_neg hrun, List.filter_cons_of_pos (by simpa using hrun), List.filter_nil]

theorem take_take_append {α : Type} (k : Nat) (l l' : List α) :
    (l.take k ++ l').take k = (l ++ l').take k := by
  rw [List.take_append, List.take_append, List.take_take, Nat.min_self, List.length_take]
  congr 2
  omega

theorem Charted.startSegment (h : Charted w s) (p : Fin n) : Charted w (s.startSegment p).1 := by
  have hpid : (pol.schedule s.eventQueue s.currentTime (s.processes p)).1.pid =
      (w.pid p).take (pidLength - 1) := (schedule_pid _ _ _).trans (h.pid p)
  refine ⟨fun q => ?_, ?_⟩
  · simp only [SchedulerState.startSegment]
    rcases eq_or_ne q p with rfl | hq
    · rw [Function.update_self]
      exact hpid
    · rw [Function.update_of_ne hq]
      exact h.pid q
  · have hentries : (s.startSegment p).1.gantt.entries = if s.runTime p ≤ 0 then s.gantt.entries
        else (s.gantt.entries ++ [chartEntry w ⟨p, s.currentTime, s.runTime p, s.processes p,
          s.eventQueue⟩]).take maxGanttEntries := by
      have happend := appendGanttEntry_entries s.gantt
        (pol.schedule s.eventQueue s.currentTime (s.processes p)).1 s.currentTime (s.runTime p)
      rwa [hpid, List.take_take, Nat.min_self] at happend
    rw [hentries, startSegment_dispatches, shown_concat, h.entries]
    split
    · rfl
    · rw [← List.map_singleton, ← List.map_append, ← List.map_take, take_take_append]

theorem ensureFinish_pid (s : SchedulerState pol n) (p : Fin n) (time : Int) (q : Fin n) :
    ((s.ensureFinish p time).processes q).pid = (s.processes q).pid := by
  unfold ensureFinish
  split
  · exact Table.modify_field Process.pid s.processes p _ rfl q
  · rfl

theorem ensureFinish_chart (s : SchedulerState pol n) (p : Fin n) (time : Int) :
    (s.ensureFinish p time).gantt = s.gantt ∧ (s.ensureFinish p time).dispatches = s.dispatches := by
  unfold ensureFinish
  split <;> exact ⟨rfl, rfl⟩

theorem charted_kept (w : Workload n) : Kept (@Charted n pol w) where
  frame h hsame := h.congr hsame.processes.pid hsame.gantt hsame.dispatches
  startSegment h p := h.startSegment p
  ensureFinish {s} h p time := h.congr (ensureFinish_pid s p time) (ensureFinish_chart s p time).1
    (ensureFinish_chart s p time).2

theorem Reaches.charted (h : Loop.Reaches loopBody (startState pol w) s) : Charted w s :=
  (charted_kept w).reaches ⟨fun _ => rfl, rfl⟩ h

theorem Charted.finish (h : Charted w s) : Charted w s.finish :=
  ((charted_kept w).stampRunning h).congr (fun _ => rfl) rfl rfl

theorem simulateScheduler_charted {fuel : Nat} (h : simulateScheduler pol w fuel = some s) :
    Charted w s := by
  obtain ⟨s₀, hreach, _, rfl⟩ := simulateScheduler_eq_some h
  exact (Reaches.charted hreach).finish

end Chart

section Count

variable {w : Workload n} {s : SchedulerState pol n}

theorem Charted.countContextSwitches_eq (h : Charted w s) :
    countContextSwitches s.gantt =
      ((adjacent (shown s.dispatches)).take (maxGanttEntries - 1)).countP fun pair =>
        firstChar (w.pid pair.1.process) ≠ firstChar (w.pid pair.2.process) := by
  have hname : ∀ d : Dispatch n, firstChar (chartEntry w d).name = firstChar (w.pid d.process) := by
    intro d
    unfold chartEntry firstChar
    cases w.pid d.process <;> rfl
  rw [countContextSwitches, h.entries, adjacent_map,
    show maxGanttEntries = maxGanttEntries - 1 + 1 from rfl, adjacent_take, List.countP_map]
  refine List.countP_congr fun pair _ => ?_
  simp only [Function.comp_apply, Prod.map_fst, Prod.map_snd, hname, ne_comm]

theorem Charted.countContextSwitches_iff (h : Charted w s) :
    countContextSwitches s.gantt = s.contextSwitches ↔ s.SwitchesShown w := by
  rw [h.countContextSwitches_eq, SchedulerState.contextSwitches, countP_take_eq_iff]
  · simp only [decide_eq_true_eq, SchedulerState.SwitchesShown]
    refine forall₂_congr fun i pair => imp_congr_right fun _ => imp_congr_right fun _ =>
      and_congr_left fun _ => ?_
    unfold maxGanttEntries
    omega
  · intro pair
    simp only [decide_eq_true_eq]
    exact fun hne heq => hne (by rw [heq])

theorem switchesShown_of_firstChar
    (hpid : ∀ p q, p ≠ q → firstChar (w.pid p) ≠ firstChar (w.pid q))
    (hroom : (shown s.dispatches).length ≤ maxGanttEntries) : s.SwitchesShown w := by
  intro i pair hpair hne
  have hlt := (List.getElem?_eq_some_iff.mp hpair).1
  rw [adjacent, List.length_zip, List.length_tail] at hlt
  exact ⟨by omega, hpid _ _ hne⟩

end Count

theorem simulateScheduler_ends {w : Workload n} (hw : w.Nonneg) {file : Option (List Char)}
    (hmem : pol ∈ comparisonPolicies file) (hpol : pol.Valid) :
    ∃ fuel s, simulateScheduler pol w fuel = some s := by
  simp only [comparisonPolicies, List.mem_cons, List.not_mem_nil, or_false] at hmem
  obtain rfl | rfl | rfl | rfl | rfl := hmem
  · exact SchedulerState.simulateScheduler_returns hw hpol (by decide)
  · exact SchedulerState.simulateScheduler_returns hw hpol (by decide)
  · exact SchedulerState.simulateScheduler_returns hw hpol (by decide)
  · exact SchedulerState.simulateScheduler_returns hw hpol (by decide)
  · refine SchedulerState.simulateScheduler_isSome (ProgressRun.terminates hw fun _ _ d _ => ?_)
    exact (hpol d.record.priority).imp_right .inl

/-- When the count of the chart is that of the run: `count_context_switches` compares the first
characters of the pids, and a full chart loses the dispatches that follow. -/
theorem comparison_countContextSwitches_iff {w : Workload n} (hw : w.Nonneg)
    {file : Option (List Char)} (hmem : pol ∈ comparisonPolicies file) :
    (pol.Valid → ∃ fuel s, simulateScheduler pol w fuel = some s) ∧
      ∀ fuel s, simulateScheduler pol w fuel = some s →
        (countContextSwitches s.gantt = s.contextSwitches ↔ s.SwitchesShown w) :=
  ⟨simulateScheduler_ends hw hmem, fun _ _ h =>
    (simulateScheduler_charted h).countContextSwitches_iff⟩

theorem comparison_switchesShown_sample :
    ∃ s, simulateScheduler .fcfs sampleWorkload 10 = some s ∧ s.SwitchesShown sampleWorkload := by
  have hcount : (simulateScheduler .fcfs sampleWorkload 10).map
      (fun s => (countContextSwitches s.gantt, s.contextSwitches)) = some (1, 1) := by decide +kernel
  obtain ⟨s, hs, heq⟩ := Option.map_eq_some_iff.mp hcount
  rw [Prod.mk.injEq] at heq
  have hmem : Policy.fcfs ∈ comparisonPolicies none := by simp [comparisonPolicies]
  have hiff := (comparison_countContextSwitches_iff sampleWorkload_nonneg hmem).2 10 s hs
  exact ⟨s, hs, hiff.mp (heq.1.trans heq.2.symm)⟩

def samePrefixWorkload : Workload 2 where
  pid := ![['P', '1'], ['P', '2']]
  arrivalTime := ![0, 0]
  burstTime := ![1, 1]

theorem samePrefix_miscounted :
    Function.Injective samePrefixWorkload.pid ∧ samePrefixWorkload.Nonneg ∧
      (∀ p, 1 ≤ samePrefixWorkload.burstTime p) ∧ .fcfs ∈ comparisonPolicies none ∧
      (simulateScheduler .fcfs samePrefixWorkload 10).map
        (fun s => (countContextSwitches s.gantt, s.contextSwitches)) = some (0, 1) :=
  ⟨by decide, ⟨by decide, by decide⟩, by decide, by simp [comparisonPolicies], by decide +kernel⟩

end OsLab.Sched
