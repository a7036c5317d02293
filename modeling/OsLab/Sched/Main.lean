import OsLab.Sched.Compare
import OsLab.Sched.WorkloadLoader

/-! The program `schedsim`: its command line, the workload and the algorithm that `main` takes from
it, and what is printed in the end. -/

namespace OsLab.Sched

open CText

structure CommandLineArguments where
  algorithm : Option (List Char)
  processStr : Option (List Char)
  inputFile : Option (List Char)
  quantumTime : Int
  mlfqConfigFile : Option (List Char)
  compareMode : Bool
deriving DecidableEq, Repr

/-- What `getopt_long` returns, with `optarg`. -/
inductive CommandOption where
  | algorithm (optarg : List Char)
  | processes (optarg : List Char)
  | input (optarg : List Char)
  | quantum (optarg : List Char)
  | mlfqConfig (optarg : List Char)
  | compare
  | invalid

/-- `strtol`, which is 0 for a text without a number, and the cast to `int`. -/
def quantumOf (optarg : List Char) : Int := ((scanD optarg).map Prod.fst).getD 0

def CommandLineArguments.set (args : CommandLineArguments) :
    CommandOption → Option CommandLineArguments
  | .algorithm optarg => some { args with algorithm := some optarg }
  | .processes optarg => some { args with processStr := some optarg }
  | .input optarg => some { args with inputFile := some optarg }
  | .quantum optarg => some { args with quantumTime := quantumOf optarg }
  | .mlfqConfig optarg => some { args with mlfqConfigFile := some optarg }
  | .compare => some { args with compareMode := true }
  | .invalid => none

def parseCommandLine (options : List CommandOption) : Option CommandLineArguments :=
  options.foldlM CommandLineArguments.set ⟨none, none, none, 0, none, false⟩

/-- How the program ends: early with an exit code, with code 0 after the metrics or the table of a
comparison, or by writing outside of an array. -/
inductive Outcome where
  | exited (code : Nat)
  | metrics (processes : List Process) (gantt : Gantt)
  | comparison (results : List AlgorithmResult)
  | undefined

abbrev Files := List Char → Option (List Char)

structure Stack where
  file : Record
  string : Nat → Record

def workloadsDirectory : List Char := "workloads/".toList

def filepathSize : Nat := 256

/-- `strcat` behind the directory, into a buffer of fixed size. -/
def workloadPath (name : List Char) : Except Outcome (List Char) :=
  if (workloadsDirectory ++ name).length < filepathSize then .ok (workloadsDirectory ++ name)
  else .error .undefined

def WorkloadFault.outcome : WorkloadFault → Outcome
  | .cannotOpen => .exited 1
  | .tableFull => .undefined

def loadProcesses (files : Files) (stack : Stack) (args : CommandLineArguments) :
    Except Outcome ProcessTable :=
  match args.inputFile, args.processStr with
  | some name, _ => do
    let path ← workloadPath name
    (getProcessesFromFile .empty stack.file (files path)).mapError WorkloadFault.outcome
  | none, some processStr =>
    (getProcessesFromString .empty stack.string processStr).mapError WorkloadFault.outcome
  | none, none => .error (.exited 1)

def ProcessTable.workload (t : ProcessTable) : Workload t.processes.length where
  pid p := t.processes[p].pid
  arrivalTime p := t.processes[p].arrivalTime
  burstTime p := t.processes[p].burstTime

/-- `strcasecmp` with a name in small letters. -/
def sameName (algorithm : List Char) (name : String) : Bool :=
  algorithm.map Char.toLower == name.toList

/-- The file of the name in the directory, cut to the buffer, or else the file of the name. -/
def mlfqConfigText (files : Files) (name : List Char) : Option (List Char) :=
  files ((workloadsDirectory ++ name).take (filepathSize - 1)) <|> files name

def loadMlfqPolicy (file : Option (List Char)) : Except Outcome Policy :=
  match h : loadMlfqConfig file with
  | .ok config => .ok (.mlfq config (numLevels_pos_of_load h))
  | .error (.outOfBounds _) => .error .undefined
  | .error _ => .error (.exited 1)

def selectAlgorithm (files : Files) (args : CommandLineArguments) : Except Outcome Policy :=
  match args.algorithm with
  | none => .error (.exited 1)
  | some algorithm =>
    if sameName algorithm "fcfs" then .ok .fcfs
    else if sameName algorithm "sjf" then .ok .sjf
    else if sameName algorithm "stcf" then .ok .stcf
    else if sameName algorithm "rr" then
      if args.quantumTime ≤ 0 then .error (.exited 1) else .ok (.rr args.quantumTime)
    else if sameName algorithm "mlfq" then
      match args.mlfqConfigFile with
      | none => .error (.exited 1)
      | some name => loadMlfqPolicy (mlfqConfigText files name)
    else .error (.exited 1)

def comparisonFile : List Char := "workloads/mlfq_config.txt".toList

def simulate (pol : Policy) (t : ProcessTable) (fuel : Nat) : Option Outcome :=
  (simulateScheduler pol t.workload fuel).map fun s =>
    .metrics (List.ofFn s.processes) s.gantt

def main (files : Files) (stack : Stack) (options : List CommandOption) (fuel : Nat) :
    Option Outcome :=
  match parseCommandLine options with
  | none => some (.exited 1)
  | some args =>
    match loadProcesses files stack args with
    | .error outcome => some outcome
    | .ok t =>
      if args.compareMode then
        (runComparison (mlfqConfigText files comparisonFile) t.workload fuel).map .comparison
      else
        match selectAlgorithm files args with
        | .error outcome => some outcome
        | .ok pol => simulate pol t fuel

def inputRecords (files : Files) (args : CommandLineArguments) : List Record :=
  match args.inputFile with
  | some name =>
    (linesOf ((files (workloadsDirectory ++ name)).getD [])).filterMap fileRecord
  | none => (recordTokens (args.processStr.getD [])).filterMap stringRecord

def InputExact (files : Files) (args : CommandLineArguments) : Prop :=
  match args.inputFile with
  | some name =>
    (workloadsDirectory ++ name).length < filepathSize ∧
      ∃ text, files (workloadsDirectory ++ name) = some text ∧
        (∀ line ∈ linesOf text, LineExact line) ∧
        ((linesOf text).filterMap fileRecord).length ≤ maxProcesses
  | none => ∃ processStr, args.processStr = some processStr ∧
      ∀ token ∈ (recordTokens processStr).take maxProcesses, TokenExact token

structure Reports (r : Record) (p : Process) : Prop where
  pid : p.pid = r.pid
  arrivalTime : p.arrivalTime = r.arrivalTime
  burstTime : p.burstTime = r.burstTime
  finishTime : r.arrivalTime + r.burstTime ≤ p.finishTime
  turnaroundTime : p.turnaroundTime = p.finishTime - r.arrivalTime
  waitingTime : p.waitingTime = p.turnaroundTime - r.burstTime
  responseTime : 0 ≤ p.responseTime ∧ p.responseTime ≤ p.waitingTime

section Input

variable {files : Files} {args : CommandLineArguments} {records : List Record}
  {result : Except WorkloadFault ProcessTable}

theorem AppendsRecords.exists_table (h : AppendsRecords .empty records result) :
    ∃ t, result = .ok t ∧ t.processes = (records.take maxProcesses).map Record.process := by
  cases result with
  | error fault => cases h
  | ok t =>
    refine ⟨t, rfl, (Except.ok.inj h).trans ?_⟩
    rw [List.map_take]
    rfl

theorem loadProcesses_exact (h : InputExact files args) (stack : Stack) :
    ∃ t, loadProcesses files stack args = .ok t ∧
      t.processes = ((inputRecords files args).take maxProcesses).map Record.process := by
  unfold InputExact at h
  cases hinput : args.inputFile with
  | some name =>
    rw [hinput] at h
    obtain ⟨hlen, text, hfile, hlines, hroom⟩ := h
    have hloads := (appendsRecords_file_iff .empty stack.file text).mpr
      ⟨hlines, (Nat.zero_add _).trans_le hroom⟩
    obtain ⟨t, ht, hprocesses⟩ := hloads.exists_table
    refine ⟨t, ?_, by simpa only [inputRecords, hinput, hfile, Option.getD_some] using hprocesses⟩
    simp only [loadProcesses, hinput, workloadPath, if_pos hlen]
    show (getProcessesFromFile .empty stack.file (files (workloadsDirectory ++ name))).mapError
      WorkloadFault.outcome = .ok t
    rw [hfile, ht]
    rfl
  | none =>
    rw [hinput] at h
    obtain ⟨processStr, hstr, htokens⟩ := h
    have hloads := (appendsRecords_string_iff .empty stack.string (recordTokens processStr)).mpr
      htokens _ List.prefix_rfl
    obtain ⟨t, ht, hprocesses⟩ := hloads.exists_table
    refine ⟨t, ?_, by simpa only [inputRecords, hinput, hstr, Option.getD_some] using hprocesses⟩
    simp only [loadProcesses, hinput, hstr, getProcessesFromString, ht]
    rfl

theorem pid_length_lt {r : Record} (h : r ∈ inputRecords files args) :
    r.pid.length < pidLength := by
  unfold inputRecords at h
  split at h
  · obtain ⟨line, -, hrecord⟩ := List.mem_filterMap.mp h
    obtain ⟨_, _, _, _, _, hrecord⟩ := fileRecord_eq_some hrecord
    obtain ⟨_, _, _, _, _, _, hpid, _⟩ := recordOf_eq_some hrecord
    exact hpid
  · obtain ⟨token, -, hrecord⟩ := List.mem_filterMap.mp h
    obtain ⟨_, _, _, _, _, _, hpid, _⟩ := recordOf_eq_some hrecord
    exact hpid

theorem loadMlfqPolicy_isMlfq {file : Option (List Char)} {pol : Policy}
    (h : loadMlfqPolicy file = .ok pol) : pol.isMlfq = true := by
  unfold loadMlfqPolicy at h
  split at h
  · obtain rfl := Except.ok.inj h
    rfl
  · cases h
  · cases h

theorem selectAlgorithm_valid {pol : Policy} (h : selectAlgorithm files args = .ok pol)
    (hmlfq : pol.isMlfq = true → pol.Valid ∧ pol.boostPeriod ≤ 0) :
    pol.Valid ∧ pol.boostPeriod ≤ 0 := by
  unfold selectAlgorithm at h
  split at h
  · cases h
  · split_ifs at h with hfcfs hsjf hstcf hrr hquantum hname
    · obtain rfl := Except.ok.inj h
      exact ⟨trivial, by decide⟩
    · obtain rfl := Except.ok.inj h
      exact ⟨trivial, by decide⟩
    · obtain rfl := Except.ok.inj h
      exact ⟨trivial, by decide⟩
    · obtain rfl := Except.ok.inj h
      exact ⟨Policy.rr_valid (by omega), Policy.rr_boostPeriod_le _⟩
    · split at h
      · cases h
      · exact hmlfq (loadMlfqPolicy_isMlfq h)

end Input

section Run

open SchedulerState

variable {pol : Policy} {t : ProcessTable} {records : List Record}

theorem reports_of_simulated {n : Nat} {w : Workload n} {s : SchedulerState pol n} {fuel : Nat}
    (hw : w.Nonneg) (hpol : pol.Valid) (hboost : pol.boostPeriod ≤ 0)
    (hsim : simulateScheduler pol w fuel = some s) {p : Fin n} {r : Record}
    (hpid : (w.pid p).take (pidLength - 1) = r.pid) (harrival : w.arrivalTime p = r.arrivalTime)
    (hburst : w.burstTime p = r.burstTime) : Reports r (s.processes p) := by
  have hcharted := simulateScheduler_charted hsim
  obtain ⟨u, hreach, hend, rfl⟩ := simulateScheduler_eq_some hsim
  have hc := Reaches.coherent hw hpol hboost hreach
  have hresponse := Reaches.responseTime_le hw hpol hboost hreach hend p
  obtain ⟨d, hlast, hfinish⟩ := hc.last_of_ended hend p
  have hturnaround := hc.turnaround hlast (hc.served_of_ended hend p)
  refine {
    pid := (hcharted.pid p).trans hpid, responseTime := hresponse, arrivalTime := ?_,
    burstTime := ?_, finishTime := ?_, turnaroundTime := ?_, waitingTime := ?_ }
  all_goals rw [hc.finish_eq hend]
  · exact ((hc.recorded p).arrivalTime).trans harrival
  · exact ((hc.recorded p).burstTime).trans hburst
  · rw [← harrival, ← hburst]
    exact hturnaround.trans_eq hfinish.symm
  · rw [← harrival, ← (hc.recorded p).arrivalTime]
    rfl
  · rw [← hburst, ← (hc.recorded p).burstTime]
    rfl

theorem workload_of_records (ht : t.processes = records.map Record.process)
    {p : Fin t.processes.length} {r : Record} (hr : records[p.1]? = some r) :
    t.workload.pid p = r.pid.take (pidLength - 1) ∧ t.workload.arrivalTime p = r.arrivalTime ∧
      t.workload.burstTime p = r.burstTime := by
  have hp : t.processes[p] = r.process := by
    have hget : t.processes[p.1]? = some r.process :=
      (congrArg (·[p.1]?) ht).trans (by rw [List.getElem?_map, hr, Option.map_some])
    exact (List.getElem?_eq_some_iff.mp hget).2
  unfold ProcessTable.workload
  dsimp only
  rw [hp]
  exact ⟨rfl, rfl, rfl⟩

theorem workload_nonneg (ht : t.processes = records.map Record.process)
    (hnonneg : ∀ r ∈ records, 0 ≤ r.arrivalTime ∧ 0 ≤ r.burstTime) : t.workload.Nonneg := by
  have hlen : t.processes.length = records.length := by rw [ht, List.length_map]
  have hrecord : ∀ p : Fin t.processes.length, ∃ r, records[p.1]? = some r := fun p =>
    ⟨_, List.getElem?_eq_getElem (p.2.trans_eq hlen)⟩
  constructor
  · intro p
    obtain ⟨r, hr⟩ := hrecord p
    rw [(workload_of_records ht hr).2.1]
    exact (hnonneg r (List.mem_of_getElem? hr)).1
  · intro p
    obtain ⟨r, hr⟩ := hrecord p
    rw [(workload_of_records ht hr).2.2]
    exact (hnonneg r (List.mem_of_getElem? hr)).2

theorem reports_of_records (ht : t.processes = records.map Record.process)
    (hpid : ∀ r ∈ records, r.pid.length < pidLength)
    (hnonneg : ∀ r ∈ records, 0 ≤ r.arrivalTime ∧ 0 ≤ r.burstTime) (hpol : pol.Valid)
    (hboost : pol.boostPeriod ≤ 0) {s : SchedulerState pol t.processes.length} {fuel : Nat}
    (hsim : simulateScheduler pol t.workload fuel = some s) :
    List.Forall₂ Reports records (List.ofFn s.processes) := by
  have hlen : records.length = t.processes.length := by rw [ht, List.length_map]
  refine List.forall₂_iff_get.mpr ⟨by rw [List.length_ofFn, hlen], fun i hi hi' => ?_⟩
  have hr : records[i]? = some records[i] := List.getElem?_eq_getElem hi
  obtain ⟨hname, harrival, hburst⟩ := workload_of_records (p := ⟨i, hlen ▸ hi⟩) ht hr
  simp only [List.get_eq_getElem, List.getElem_ofFn]
  refine reports_of_simulated (workload_nonneg ht hnonneg) hpol hboost hsim ?_ harrival hburst
  have hfits := hpid _ (List.getElem_mem hi)
  rw [hname, List.take_take, Nat.min_self, List.take_of_length_le (by unfold pidLength at *; omega)]

end Run

theorem main_eq_simulate {files : Files} {stack : Stack} {options : List CommandOption}
    {args : CommandLineArguments} {t : ProcessTable} {pol : Policy}
    (hparse : parseCommandLine options = some args) (hmode : args.compareMode = false)
    (hload : loadProcesses files stack args = .ok t)
    (hselect : selectAlgorithm files args = .ok pol) (fuel : Nat) :
    main files stack options fuel = simulate pol t fuel := by
  simp [main, hparse, hload, hmode, hselect]

theorem main_reports {files : Files} {options : List CommandOption} {args : CommandLineArguments}
    {pol : Policy} (hparse : parseCommandLine options = some args)
    (hmode : args.compareMode = false) (hexact : InputExact files args)
    (hnonneg : ∀ r ∈ inputRecords files args, 0 ≤ r.arrivalTime ∧ 0 ≤ r.burstTime)
    (hselect : selectAlgorithm files args = .ok pol)
    (hmlfq : pol.isMlfq = true → pol.Valid ∧ pol.boostPeriod ≤ 0) (stack : Stack) :
    (∃ fuel outcome, main files stack options fuel = some outcome) ∧
      ∀ fuel outcome, main files stack options fuel = some outcome →
        ∃ processes gantt, outcome = .metrics processes gantt ∧
          List.Forall₂ Reports ((inputRecords files args).take maxProcesses) processes := by
  obtain ⟨t, hload, ht⟩ := loadProcesses_exact hexact stack
  obtain ⟨hpol, hboost⟩ := selectAlgorithm_valid hselect hmlfq
  have hmain := main_eq_simulate hparse hmode hload hselect
  have hrecords : ∀ r ∈ (inputRecords files args).take maxProcesses,
      0 ≤ r.arrivalTime ∧ 0 ≤ r.burstTime := fun r hr => hnonneg r (List.mem_of_mem_take hr)
  constructor
  · obtain ⟨fuel, s, hsim⟩ :=
      SchedulerState.simulateScheduler_returns (workload_nonneg ht hrecords) hpol hboost
    exact ⟨fuel, _, by rw [hmain, simulate, hsim, Option.map_some]⟩
  · intro fuel outcome houtcome
    rw [hmain] at houtcome
    obtain ⟨s, hsim, rfl⟩ := Option.map_eq_some_iff.mp houtcome
    exact ⟨_, _, rfl, reports_of_records ht (fun r hr => pid_length_lt (List.mem_of_mem_take hr))
      hrecords hpol hboost hsim⟩

def sampleOptions : List CommandOption :=
  [.algorithm "RR".toList, .quantum "2".toList, .processes "A:0:3;B:1:2".toList]

def sampleArguments : CommandLineArguments :=
  ⟨some "RR".toList, some "A:0:3;B:1:2".toList, none, 2, none, false⟩

def emptyRecord : Record := ⟨[], 0, 0⟩

theorem main_reports_sample :
    (∃ fuel outcome,
      main (fun _ => none) ⟨emptyRecord, fun _ => emptyRecord⟩ sampleOptions fuel = some outcome) ∧
    ∀ fuel outcome,
      main (fun _ => none) ⟨emptyRecord, fun _ => emptyRecord⟩ sampleOptions fuel = some outcome →
      ∃ processes gantt, outcome = .metrics processes gantt ∧
        List.Forall₂ Reports [⟨['A'], 0, 3⟩, ⟨['B'], 1, 2⟩] processes := by
  have hparse : parseCommandLine sampleOptions = some sampleArguments := by decide +kernel
  have hrecords : inputRecords (fun _ => none) sampleArguments =
      [⟨['A'], 0, 3⟩, ⟨['B'], 1, 2⟩] := by decide +kernel
  have hexact : InputExact (fun _ => none) sampleArguments :=
    ⟨_, rfl, tokensExact_iff.mpr ⟨by decide +kernel, by decide +kernel⟩⟩
  have hselect : selectAlgorithm (fun _ => none) sampleArguments = .ok (.rr 2) := rfl
  have hnonneg : ∀ r ∈ inputRecords (fun _ => none) sampleArguments,
      0 ≤ r.arrivalTime ∧ 0 ≤ r.burstTime := by
    rw [hrecords]
    decide
  have hreports := main_reports hparse rfl hexact hnonneg hselect (fun h => by cases h)
    ⟨emptyRecord, fun _ => emptyRecord⟩
  rwa [hrecords] at hreports

end OsLab.Sched
