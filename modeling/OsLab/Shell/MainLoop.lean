import Mathlib.Data.Fintype.EquivFin
import OsLab.Foundation.Interleaving
import OsLab.Shell.Jobs

/-! The loop of `main` in `mysh.c`: cleanup, one line of input, and the command on it. -/

namespace OsLab.Shell

/-- `stdin` is what has not been read yet. -/
structure State where
  stdin : List Char
  table : Jobs
  exited : Bool

def start (stdin : List Char) : State := ⟨stdin, .empty, false⟩

inductive Builtin where
  | exit
  | cd
  | pwd
deriving DecidableEq, Repr

def handlesBuiltin (command : List Char) : Option Builtin :=
  if command = "exit".toList then some .exit
  else if command = "cd".toList then some .cd
  else if command = "pwd".toList then some .pwd
  else none

/-- What the system has to answer in one round: the children that have finished, the pid of a new
one, and what the children leave of standard input. They have it open too, and can read from it or
move its offset, the new one also where it fails and calls `exit`. -/
structure Answers where
  finished : Pid → Bool
  fork : Pid
  stdin : List Char → List Char

/-- A builtin leaves the shell as it is, unless it ends it. Else the command runs in a new child,
for which `none` is a pid that the system cannot give. One in the foreground is reaped at once. What
the child does to standard input comes in with the end of the round. -/
def interpreter (s : State) (command : Command) (pid : Pid) : Option State :=
  match command.command with
  | none => some s
  | some word =>
    match handlesBuiltin word with
    | some .exit => some { s with exited := true }
    | some .cd => some s
    | some .pwd => some s
    | none =>
      if pid = 0 ∨ pid ∈ s.table.children then none
      else if command.background then some { s with table := s.table.add pid command }
      else some s

def State.leave (s : State) (others : List Char → List Char) : State :=
  { s with stdin := others s.stdin }

def iterate (s : State) (answers : Answers) : Option State :=
  if s.exited then none
  else
    let table := cleanupBackgroundJobs answers.finished s.table
    let (command, stdin) := getCommand s.stdin
    (interpreter ⟨stdin, table, false⟩ command answers.fork).map (·.leave answers.stdin)

def State.parsedLine? (s : State) (_ : Answers) : Option (List Char) :=
  (readInput s.stdin).1.text?

namespace Command

def builtin? (c : Command) : Option Builtin := c.command.bind handlesBuiltin

def InBackground (c : Command) : Prop :=
  c.background = true ∧ c.command ≠ none ∧ c.builtin? = none

instance : DecidablePred InBackground := fun _ => inferInstanceAs (Decidable (_ ∧ _))

end Command

def IsExit (line : List Char) : Prop := (parseLine line).builtin? = some .exit

instance : DecidablePred IsExit := fun _ => inferInstanceAs (Decidable (_ = _))

theorem interpreter_cases {s s' : State} {c : Command} {pid : Pid}
    (hs : interpreter s c pid = some s') (hrun : s.exited = false) :
    s'.stdin = s.stdin ∧ (s'.exited = true ↔ c.builtin? = some .exit) ∧
      ((c.InBackground ∧ pid ∉ s.table.children ∧ s'.table = s.table.add pid c) ∨
        (¬ c.InBackground ∧ s'.table = s.table)) := by
  unfold interpreter at hs
  cases hword : c.command with
  | none =>
    simp only [hword, Option.some.injEq] at hs
    subst hs
    simp [Command.InBackground, Command.builtin?, hword, hrun]
  | some word =>
    have hbuiltin : c.builtin? = handlesBuiltin word := by
      rw [Command.builtin?, hword, Option.bind_some]
    rw [hword] at hs
    cases hcase : handlesBuiltin word with
    | some builtin =>
      have hfore : ¬ c.InBackground := fun h => absurd h.2.2 (by simp [hbuiltin, hcase])
      cases builtin with
      | exit =>
        simp only [hcase, Option.some.injEq] at hs
        subst hs
        exact ⟨rfl, by simp [hbuiltin, hcase], .inr ⟨hfore, rfl⟩⟩
      | cd | pwd =>
        simp only [hcase, Option.some.injEq] at hs
        subst hs
        exact ⟨rfl, by simp [hbuiltin, hcase, hrun], .inr ⟨hfore, rfl⟩⟩
    | none =>
      have hnext : c.builtin? ≠ some .exit := by simp [hbuiltin, hcase]
      simp only [hcase] at hs
      split_ifs at hs with hpid hback
      · cases hs
        have hin : c.InBackground := ⟨hback, by simp [hword], hbuiltin.trans hcase⟩
        exact ⟨rfl, by simp [hrun, hnext], .inl ⟨hin, (not_or.mp hpid).2, rfl⟩⟩
      · cases hs
        exact ⟨rfl, by simp [hrun, hnext], .inr ⟨fun h => hback h.1, rfl⟩⟩

theorem exists_interpreter (s : State) (c : Command) : ∃ pid s', interpreter s c pid = some s' := by
  obtain ⟨pid, hpid⟩ := Infinite.exists_notMem_finset (0 :: s.table.children).toFinset
  rw [List.mem_toFinset, List.mem_cons] at hpid
  refine ⟨pid, ?_⟩
  unfold interpreter
  rw [if_neg hpid]
  repeat' split
  all_goals exact ⟨_, rfl⟩

section Iterate

variable {s s' : State} {answers : Answers}

theorem iterate_eq (h : s.exited = false) :
    iterate s answers = (interpreter
      ⟨(getCommand s.stdin).2, cleanupBackgroundJobs answers.finished s.table, false⟩
      (getCommand s.stdin).1 answers.fork).map (·.leave answers.stdin) := by
  rw [iterate, h]
  rfl

theorem iterate_exited (h : s.exited = true) : iterate s answers = none := by rw [iterate, if_pos h]

theorem not_exited_of_iterate (hs : iterate s answers = some s') : s.exited = false := by
  by_contra h
  rw [iterate_exited (Bool.eq_true_of_not_eq_false h)] at hs
  cases hs

theorem exists_iterate (h : s.exited = false) :
    ∃ answers : Answers, (∀ text, answers.stdin text = text) ∧ (iterate s answers).isSome := by
  obtain ⟨pid, s', hs⟩ := exists_interpreter
    ⟨(getCommand s.stdin).2, cleanupBackgroundJobs (fun _ => false) s.table, false⟩
    (getCommand s.stdin).1
  refine ⟨⟨fun _ => false, pid, fun text => text⟩, fun _ => rfl, ?_⟩
  rw [iterate_eq h, hs]
  rfl

theorem iterate_reads (hs : iterate s answers = some s') :
    s'.stdin = answers.stdin (readInput s.stdin).2 ∧
      (s'.exited = true ↔ ∃ line ∈ s.parsedLine? answers, IsExit line) := by
  rw [iterate_eq (not_exited_of_iterate hs)] at hs
  obtain ⟨s₁, hs₁, rfl⟩ := Option.map_eq_some_iff.mp hs
  obtain ⟨hstdin, hexit, _⟩ := interpreter_cases hs₁ rfl
  have hexit : (s₁.leave answers.stdin).exited = true ↔ _ := hexit
  have hstdin : (s₁.leave answers.stdin).stdin = _ := congrArg answers.stdin hstdin
  rw [hstdin, hexit]
  unfold getCommand State.parsedLine?
  rcases readInput s.stdin with ⟨_ | _ | text, rest⟩ <;>
    simp [IsExit, Input.text?, Command.empty, Command.builtin?, Command.command]

theorem iterate_table (hs : iterate s answers = some s') :
    ((getCommand s.stdin).1.InBackground ∧
        answers.fork ∉ (cleanupBackgroundJobs answers.finished s.table).children ∧
        s'.table = (cleanupBackgroundJobs answers.finished s.table).add answers.fork
          (getCommand s.stdin).1) ∨
      (¬ (getCommand s.stdin).1.InBackground ∧
        s'.table = cleanupBackgroundJobs answers.finished s.table) := by
  rw [iterate_eq (not_exited_of_iterate hs)] at hs
  obtain ⟨s₁, hs₁, rfl⟩ := Option.map_eq_some_iff.mp hs
  exact (interpreter_cases hs₁ rfl).2.2

end Iterate

end OsLab.Shell
