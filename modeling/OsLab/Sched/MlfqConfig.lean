import Mathlib
import OsLab.Foundation.CScan

/-! The MLFQ configuration of `mlfq-config.c`: its loader and its validator. -/

namespace OsLab.Sched

open CText

abbrev maxMlfqLevels : Nat := 10

instance : NeZero maxMlfqLevels := ⟨Nat.succ_ne_zero 9⟩

theorem one_le_maxMlfqLevels : 1 ≤ maxMlfqLevels := by decide

theorem two_le_maxMlfqLevels : 2 ≤ maxMlfqLevels := by decide

def mlfqConfigLineMax : Nat := 256

structure MLFQLevel where
  queueId : Int
  timeQuantum : Int
  allotment : Int
deriving DecidableEq, Repr

/-- The levels below `numLevels` are in use; the others keep what `memset` gave them. -/
structure MLFQConfig where
  levels : Fin maxMlfqLevels → MLFQLevel
  numLevels : Nat
  boostPeriod : Int
  numLevels_le : numLevels ≤ maxMlfqLevels

def MLFQConfig.level? (config : MLFQConfig) (level : Int) : Option MLFQLevel :=
  if h : 0 ≤ level ∧ level < config.numLevels then
    some (config.levels ⟨level.toNat, by have := config.numLevels_le; omega⟩)
  else none

theorem MLFQConfig.level?_cases (config : MLFQConfig) (level : Int) : config.level? level = none ∨
    ∃ i : Fin maxMlfqLevels, i < config.numLevels ∧ config.level? level = some (config.levels i) := by
  by_cases h : 0 ≤ level ∧ level < config.numLevels
  · exact .inr ⟨_, show level.toNat < config.numLevels by omega, dif_pos h⟩
  · exact .inl (dif_neg h)

/-- Why `load_mlfq_config` returns NULL, or in the last case writes outside `levels`. -/
inductive LoadError where
  | cannotOpen
  | invalidQueue (lineNum : Nat)
  | queueIdTooLarge (queueId : Int)
  | invalidBoost (lineNum : Nat)
  | invalidConfig
  | outOfBounds (queueId : Int)
deriving DecidableEq, Repr

def emptyConfig : MLFQConfig := ⟨fun _ => ⟨0, 0, 0⟩, 0, -1, Nat.zero_le _⟩

def scanQueueLine (trimmed : List Char) : Option (Int × Int × Int) := do
  let (queueId, rest) ← scanD (trimmed.drop 1)
  let (quantum, rest) ← scanD rest
  let (allotment, _) ← scanD rest
  return (queueId, quantum, allotment)

/-- The three stores of a `Q` line whose id is below the maximum. -/
def setLevel (config : MLFQConfig) (queueId quantum allotment : Int) :
    Except LoadError MLFQConfig :=
  if h : 0 ≤ queueId ∧ queueId < maxMlfqLevels then
    .ok {
      levels := Function.update config.levels ⟨queueId.toNat, by omega⟩ ⟨queueId, quantum, allotment⟩
      numLevels := if config.numLevels ≤ queueId then queueId.toNat + 1 else config.numLevels
      boostPeriod := config.boostPeriod
      numLevels_le := by
        have := config.numLevels_le
        split <;> omega }
  else .error (.outOfBounds queueId)

def boostPeriodWord : List Char := "BOOST_PERIOD".toList

/-- What `load_mlfq_config` takes a line for. -/
inductive ConfigLine where
  | skip
  | queue (level : MLFQLevel)
  | boost (period : Int)
  | badQueue
  | badBoost
deriving DecidableEq, Repr

def trimLine (line : List Char) : List Char :=
  ((line.reverse.dropWhile fun c => c == '\n' || c == '\r').reverse).dropWhile fun c =>
    c == ' ' || c == '\t'

def configLine (line : List Char) : ConfigLine :=
  match trimLine line with
  | [] => .skip
  | c :: cs =>
    if c = '#' then .skip
    else if c = 'Q' then
      match scanQueueLine (c :: cs) with
      | none => .badQueue
      | some (queueId, quantum, allotment) => .queue ⟨queueId, quantum, allotment⟩
    else if boostPeriodWord.isPrefixOf (c :: cs) then
      match scanD ((c :: cs).drop boostPeriodWord.length) with
      | none => .badBoost
      | some (boost, _) => .boost boost
    else .skip

def loadLine (config : MLFQConfig) (lineNum : Nat) (line : List Char) :
    Except LoadError MLFQConfig :=
  match configLine line with
  | .skip => .ok config
  | .queue level =>
    if (maxMlfqLevels : Int) ≤ level.queueId then .error (.queueIdTooLarge level.queueId)
    else setLevel config level.queueId level.timeQuantum level.allotment
  | .boost period => .ok { config with boostPeriod := period }
  | .badQueue => .error (.invalidQueue lineNum)
  | .badBoost => .error (.invalidBoost lineNum)

def loadLines : MLFQConfig → Nat → List (List Char) → Except LoadError MLFQConfig
  | config, _, [] => .ok config
  | config, lineNum, line :: lines => do
    let config ← loadLine config (lineNum + 1) line
    loadLines config (lineNum + 1) lines

def validateMlfqConfig (config : MLFQConfig) : Bool :=
  0 < config.numLevels &&
    (List.finRange maxMlfqLevels).any fun i =>
      i < config.numLevels &&
        ((config.levels i).timeQuantum != 0 || (config.levels i).allotment != 0)

/-- The argument is the text of the file that one of the two `fopen` calls opens. -/
def loadMlfqConfig (file : Option (List Char)) : Except LoadError MLFQConfig :=
  match file with
  | none => .error .cannotOpen
  | some text => do
    let config ← loadLines emptyConfig 0 (readLines mlfqConfigLineMax text.length text)
    if validateMlfqConfig config then .ok config else .error .invalidConfig

theorem loadMlfqConfig_single {line : List Char} {config : MLFQConfig}
    (hread : readLines mlfqConfigLineMax line.length line = [line])
    (hload : loadLine emptyConfig 1 line = .ok config) (hvalid : validateMlfqConfig config = true) :
    loadMlfqConfig (some line) = .ok config := by
  simp [loadMlfqConfig, hread, loadLines, hload, hvalid, bind, Except.bind]

theorem validate_of_load {file : Option (List Char)} {config : MLFQConfig}
    (h : loadMlfqConfig file = .ok config) : validateMlfqConfig config = true := by
  cases file with
  | none => simp [loadMlfqConfig] at h
  | some text =>
    simp only [loadMlfqConfig, bind, Except.bind] at h
    split at h
    · simp at h
    · split at h
      · rename_i hv
        rwa [← Except.ok.inj h]
      · simp at h

theorem numLevels_pos_of_load {file : Option (List Char)} {config : MLFQConfig}
    (h : loadMlfqConfig file = .ok config) : 0 < config.numLevels := by
  have hv := validate_of_load h
  simp only [validateMlfqConfig, Bool.and_eq_true, decide_eq_true_eq] at hv
  exact hv.1

end OsLab.Sched
