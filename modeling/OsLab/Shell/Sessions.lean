import Mathlib.Algebra.Order.BigOperators.Group.List
import OsLab.Shell.Background
import OsLab.Shell.Memory

/-! Sessions of the shell in memory: no block is read after it has been freed, or freed twice, and
what is allocated belongs to the background jobs, but for the strings of the commands that are never
handed to the interpreter. -/

namespace OsLab.Shell

open Blocks Interleaving CommandOf

structure Job where
  pid : Pid
  addr : Addr
  command : Stored

namespace Job

def entry (j : Job) : BackgroundJob := ⟨j.pid, j.command.value⟩

def pointer (j : Job) : Pid × Addr := (j.pid, j.addr)

def cells (j : Job) : Multiset (Addr × Block) := (j.addr, .command j.command.pointers) ::ₘ j.command.cells

end Job

/-- The jobs lead to the commands of the table, and what is in memory are their blocks and `lost`. -/
structure Represents (m : MemState) (s : State) (jobs : List Job) (lost : Multiset (Addr × Block)) :
    Prop where
  stdin : m.stdin = s.stdin
  exited : m.exited = s.exited
  children : m.children = s.table.children
  pointers : m.bgJobs = jobs.map Job.pointer
  entries : s.table.bgJobs = jobs.map Job.entry
  memory : Holds m.memory ((jobs.map Job.cells).sum + lost)

theorem swapRemove_map {α β : Type} (f : α → β) (l : List α) (i : Nat) :
    swapRemove (l.map f) i = (swapRemove l i).map f := by
  unfold swapRemove
  rw [List.getLast?_map]
  cases l.getLast? with
  | none => rfl
  | some last => simp only [Option.map_some, ← List.map_set, List.map_dropLast]

section Table

variable {m : MemState} {s s' : State} {jobs : List Job} {lost : Multiset (Addr × Block)}

theorem cells_swapRemove {i : Nat} {job : Job} (hjob : jobs[i]? = some job) :
    (jobs.map Job.cells).sum = job.cells + ((swapRemove jobs i).map Job.cells).sum :=
  ((perm_swapRemove hjob).map Job.cells).sum_eq

theorem Represents.reap (h : Represents m s jobs lost) {i : Nat} {job : Job}
    (hjob : jobs[i]? = some job) : ∃ m₁ m₂,
      readCommand m.memory job.addr = some job.command.pointers ∧
      freeCommand m.memory job.command.pointers = some m₁ ∧ free m₁ job.addr = some m₂ ∧
      Holds m₂ (((swapRemove jobs i).map Job.cells).sum + lost) := by
  have hmemory := h.memory
  rw [cells_swapRemove hjob, Job.cells, Multiset.cons_add, Multiset.cons_add] at hmemory
  have hread : readCommand m.memory job.addr = some job.command.pointers := by
    rw [readCommand, hmemory.lookup (Multiset.mem_cons_self _ _)]
  rw [add_assoc, ← Multiset.add_cons] at hmemory
  obtain ⟨m₁, hfree, h₁⟩ := freeCommand_spec hmemory
  obtain ⟨m₂, hfree', h₂⟩ := h₁.free
  exact ⟨m₁, m₂, hread, hfree, hfree', h₂⟩

theorem Represents.entry (h : Represents m s jobs lost) (i : Nat) :
    s.table.bgJobs[i]? = (jobs[i]?).map Job.entry := by rw [h.entries, List.getElem?_map]

theorem Represents.pointer (h : Represents m s jobs lost) (i : Nat) :
    m.bgJobs[i]? = (jobs[i]?).map Job.pointer := by rw [h.pointers, List.getElem?_map]

section Cleanup

variable {finished : Pid → Bool} {i : Nat} {polled : List Pid}

theorem Represents.cleanup_end (h : Represents m s jobs lost)
    (hend : cleanupRound finished ⟨i, s.table, polled⟩ = none) (fuel : Nat) :
    m.cleanup finished (fuel + 1) i = some m := by
  have hnone := List.getElem?_eq_none_iff.mpr (cleanupRound_eq_none hend)
  rw [h.entry, Option.map_eq_none_iff] at hnone
  simp only [MemState.cleanup, h.pointer, hnone, Option.map_none]

theorem Represents.cleanup_round (h : Represents m s jobs lost) {c : Cleanup}
    (hs : cleanupRound finished ⟨i, s.table, polled⟩ = some c) :
    ∃ m' jobs', (∀ fuel, m.cleanup finished (fuel + 1) i = m'.cleanup finished fuel c.i) ∧
      Represents m' { s with table := c.table } jobs' lost := by
  obtain ⟨entry, hentry, -, hcases⟩ := cleanupRound_cases hs
  have hentry : s.table.bgJobs[i]? = some entry := hentry
  rw [h.entry] at hentry
  obtain ⟨job, hjob, rfl⟩ := Option.map_eq_some_iff.mp hentry
  have hpointer : m.bgJobs[i]? = some (job.pid, job.addr) := by rw [h.pointer, hjob]; rfl
  rcases hcases with ⟨children, hwait, hi, htable⟩ | ⟨hwait, hi, htable⟩
  · obtain ⟨m₁, m₂, hread, hfree, hfree', h₂⟩ := h.reap hjob
    have hwait : waitpid finished m.children job.pid = some children := by rw [h.children]; exact hwait
    refine ⟨{ m with memory := m₂, bgJobs := swapRemove m.bgJobs i, children := children },
      swapRemove jobs i, fun fuel => ?_, ?_⟩
    · simp only [MemState.cleanup, hpointer, hwait, hread, Option.bind_some, hfree, hfree', hi]
    · rw [htable]
      exact { h with
        children := rfl
        pointers := (congrArg (swapRemove · i) h.pointers).trans (swapRemove_map ..)
        entries := (congrArg (swapRemove · i) h.entries).trans (swapRemove_map ..)
        memory := h₂ }
  · have hwait : waitpid finished m.children job.pid = none := by rw [h.children]; exact hwait
    refine ⟨m, jobs, fun fuel => ?_, by rw [htable]; exact h⟩
    simp only [MemState.cleanup, hpointer, hwait, hi]

theorem cleanup_spec {fuel : Nat} (h : Represents m s jobs lost) (hend : cleanupRound finished
      (Loop.advance (cleanupRound finished) fuel ⟨i, s.table, polled⟩) = none) :
    ∃ m' jobs', m.cleanup finished (fuel + 1) i = some m' ∧ Represents m' { s with
        table := (Loop.advance (cleanupRound finished) fuel ⟨i, s.table, polled⟩).table }
      jobs' lost := by
  induction fuel generalizing i m s jobs polled with
  | zero => exact ⟨m, jobs, h.cleanup_end hend 0, h⟩
  | succ fuel ih =>
    cases hround : cleanupRound finished ⟨i, s.table, polled⟩ with
    | none =>
      refine ⟨m, jobs, h.cleanup_end hround _, ?_⟩
      simp only [Loop.advance, hround]
      exact h
    | some c =>
      obtain ⟨m₁, jobs₁, heq, h₁⟩ := h.cleanup_round hround
      simp only [Loop.advance, hround] at hend ⊢
      obtain ⟨m₂, jobs₂, hclean, h₂⟩ := ih h₁ hend
      exact ⟨m₂, jobs₂, (heq _).trans hclean, h₂⟩

theorem cleanupBackgroundJobs_spec (h : Represents m s jobs lost) (finished : Pid → Bool) :
    ∃ m' jobs', m.cleanup finished (m.bgJobs.length + 1) 0 = some m' ∧
      Represents m' { s with table := cleanupBackgroundJobs finished s.table } jobs' lost := by
  have hlength : m.bgJobs.length = s.table.bgJobs.length := by
    rw [h.pointers, h.entries, List.length_map, List.length_map]
  rw [hlength]
  exact cleanup_spec h (cleanup_ended finished s.table)

end Cleanup

end Table

namespace Command

def strings (c : Command) : List (List Char) :=
  (⟨c.args, c.inputFile, c.outputFile, c.append, c.background⟩ : CommandOf (List Char)).strings

/-- The strings that nobody frees: those of a command without words, for which the interpreter is
not called, and of the one that ends the shell. -/
def leaked (c : Command) : List (List Char) :=
  if c.command = none ∨ c.builtin? = some .exit then c.strings else []

end Command

/-- What becomes of a command, where `fork` may fail. -/
def interpreterFork (s : State) (command : Command) (fork : Option Pid) : Option State :=
  match fork with
  | some pid => interpreter s command pid
  | none => some { s with exited := command.builtin? = some .exit }

theorem iterateFork_eq {s : State} (h : s.exited = false) (answers : ForkAnswers) :
    iterateFork s answers = (interpreterFork
      ⟨(getCommand s.stdin).2, cleanupBackgroundJobs answers.finished s.table, false⟩
      (getCommand s.stdin).1 answers.fork).map (·.leave answers.stdin) := by
  unfold iterateFork interpreterFork
  cases answers.fork with
  | some pid => exact iterate_eq h
  | none => rw [h]; rfl

theorem not_exited_of_iterateFork {s s' : State} {answers : ForkAnswers}
    (hs : iterateFork s answers = some s') : s.exited = false := by
  by_contra h
  unfold iterateFork at hs
  cases hfork : answers.fork with
  | some pid =>
    simp only [hfork] at hs
    exact h (not_exited_of_iterate hs)
  | none =>
    simp only [hfork, if_pos (Bool.eq_true_of_not_eq_false h)] at hs
    cases hs

section Rounds

variable {malloc : Memory → Addr} {m : MemState} {s s' : State} {jobs : List Job}
  {lost : Multiset (Addr × Block)} {c : Stored}

theorem cells_strings (c : Stored) :
    c.cells.map Prod.snd = (c.value.strings.map Block.string : Multiset Block) := by
  have hstrings : c.value.strings = (c.map Prod.snd).strings := rfl
  rw [hstrings, strings_map, CommandOf.cells, Multiset.map_coe, List.map_map, List.map_map]
  rfl

theorem card_cells (c : Stored) : Multiset.card c.cells = c.value.strings.length := by
  rw [← Multiset.card_map Prod.snd, cells_strings, Multiset.coe_card, List.length_map]

theorem Represents.freed (h : Represents m s jobs (c.cells + lost)) :
    ∃ m', m.freed c.pointers = some m' ∧ Represents m' s jobs lost := by
  have hmemory := h.memory
  rw [add_left_comm] at hmemory
  obtain ⟨m', hfree, h'⟩ := freeCommand_spec hmemory
  exact ⟨{ m with memory := m' }, by rw [MemState.freed, hfree, Option.map_some],
    { h with memory := h' }⟩

theorem Represents.readString (h : Represents m s jobs (c.cells + lost)) {r : Addr × List Char}
    (hr : r ∈ c.strings) : readString m.memory r.1 = some r.2 :=
  readString_of_holds h.memory (Multiset.mem_add.mpr (.inr (stringCell_mem hr)))

theorem Represents.handlesBuiltin (h : Represents m s jobs (c.cells + lost)) {builtin : Builtin}
    (hbuiltin : builtin ≠ .exit) :
    ∃ m', m.handlesBuiltin c.pointers builtin = some m' ∧ Represents m' s jobs lost := by
  cases builtin with
  | exit => exact absurd rfl hbuiltin
  | pwd => exact h.freed
  | cd =>
    have hargs : c.pointers.args[1]? = (c.args[1]?).map Prod.fst := by
      rw [show c.pointers.args = c.args.map Prod.fst from rfl, List.getElem?_map]
    simp only [MemState.handlesBuiltin, hargs]
    cases harg : c.args[1]? with
    | none => exact h.freed
    | some r =>
      have hr : r ∈ c.strings :=
        List.mem_append_left _ (List.mem_append_left _ (List.mem_of_getElem? harg))
      simp only [Option.map_some, h.readString hr, Option.bind_some]
      exact h.freed

theorem Represents.forked (hfresh : ∀ m, malloc m ∉ m) (h : Represents m s jobs (c.cells + lost))
    (pid : Pid) : ∃ m' jobs', m.forked malloc c.pointers pid = some m' ∧
      Represents m' (if c.background then { s with table := s.table.add pid c.value } else s)
        jobs' lost := by
  have hback : c.pointers.background = c.background := rfl
  have hlength : m.bgJobs.length = s.table.bgJobs.length := by
    rw [h.pointers, h.entries, List.length_map, List.length_map]
  unfold MemState.forked Jobs.add
  rw [hback, hlength]
  split_ifs with hback hroom
  · have hmemory := h.memory
    rw [add_left_comm] at hmemory
    obtain ⟨a, copy, m', hcopy, hvalue, h'⟩ := copyCommand_spec hfresh hmemory
    rw [hcopy, Option.bind_some]
    have hcells : ((jobs ++ [(⟨pid, a, copy⟩ : Job)]).map Job.cells).sum + (c.cells + lost) = c.cells +
        ((a, Block.command copy.pointers) ::ₘ copy.cells + ((jobs.map Job.cells).sum + lost)) := by
      rw [List.map_append, List.sum_append, List.map_singleton, List.sum_singleton, Job.cells]
      abel
    have hcopied : Represents
        { m with memory := m', bgJobs := m.bgJobs ++ [(pid, a)], children := pid :: m.children }
        { s with table := ⟨s.table.bgJobs ++ [⟨pid, c.value⟩], pid :: s.table.children⟩ }
        (jobs ++ [⟨pid, a, copy⟩]) (c.cells + lost) := { h with
      children := congrArg (pid :: ·) h.children
      pointers := by rw [h.pointers, List.map_append]; rfl
      entries := by
        show s.table.bgJobs ++ _ = _
        rw [h.entries, List.map_append, ← hvalue]
        rfl
      memory := by rw [hcells]; exact h' }
    obtain ⟨m₂, hfree, h₂⟩ := hcopied.freed
    exact ⟨m₂, _, hfree, h₂⟩
  · have hfull : Represents { m with children := pid :: m.children }
        { s with table := ⟨s.table.bgJobs, pid :: s.table.children⟩ } jobs (c.cells + lost) :=
      { h with children := congrArg (pid :: ·) h.children }
    obtain ⟨m', hfree, h'⟩ := hfull.freed
    exact ⟨m', jobs, hfree, h'⟩
  · obtain ⟨m', hfree, h'⟩ := h.freed
    exact ⟨m', jobs, hfree, h'⟩

/-- After `lost`, the strings of the command are lost, if nobody frees them. -/
def LostWith (lost' lost : Multiset (Addr × Block)) (command : Command) : Prop :=
  lost'.map Prod.snd = lost.map Prod.snd + (command.leaked.map Block.string : Multiset Block)

theorem lostWith_leaked (lost : Multiset (Addr × Block))
    (hleak : c.value.command = none ∨ c.value.builtin? = some .exit) :
    LostWith (c.cells + lost) lost c.value := by
  rw [LostWith, Multiset.map_add, cells_strings, Command.leaked, if_pos hleak, add_comm]

theorem lostWith_self (lost : Multiset (Addr × Block)) {command : Command}
    (hfree : ¬ (command.command = none ∨ command.builtin? = some .exit)) :
    LostWith lost lost command := by
  rw [LostWith, Command.leaked, if_neg hfree]
  exact (add_zero _).symm

theorem head?_pointers (c : Stored) : c.pointers.args.head? = c.args.head?.map Prod.fst :=
  List.head?_map

theorem command_value (c : Stored) : c.value.command = c.args.head?.map Prod.snd := List.head?_map

theorem interpreter_wordless (h : Represents m s jobs (c.cells + lost)) (hnone : c.args.head? = none)
    {fork : Option Pid} (hs : interpreterFork s c.value fork = some s') (hrun : s.exited = false) :
    m.interpreter malloc c.pointers fork = some m ∧ Represents m s' jobs (c.cells + lost) ∧
      LostWith (c.cells + lost) lost c.value := by
  have hhead : c.pointers.args.head? = none := by rw [head?_pointers, hnone, Option.map_none]
  have hcommand : c.value.command = none := by rw [command_value, hnone, Option.map_none]
  have hsame : s' = s := by
    cases fork with
    | some pid => simpa [interpreterFork, interpreter, hcommand] using hs.symm
    | none =>
      simp only [interpreterFork, Command.builtin?, hcommand, Option.bind_none, reduceCtorEq,
        decide_false, Option.some.injEq] at hs
      rw [← hs, ← hrun]
  exact ⟨by simp only [MemState.interpreter, hhead], hsame ▸ h, lostWith_leaked lost (.inl hcommand)⟩

theorem interpreterFork_builtin {command : Command} {word : List Char} {builtin : Builtin}
    {fork : Option Pid} (hcommand : command.command = some word)
    (hbuiltin : handlesBuiltin word = some builtin)
    (hs : interpreterFork s command fork = some s') (hrun : s.exited = false) :
    s' = if builtin = .exit then { s with exited := true } else s := by
  cases fork with
  | some pid =>
    cases builtin <;> simpa [interpreterFork, interpreter, hcommand, hbuiltin] using hs.symm
  | none =>
    have hcase : command.builtin? = some builtin := by
      rw [Command.builtin?, hcommand, Option.bind_some, hbuiltin]
    cases builtin <;> simp [interpreterFork, hcase] at hs <;> rw [← hs] <;> simp [← hrun]

theorem interpreter_builtin (h : Represents m s jobs (c.cells + lost)) {word : List Char}
    {builtin : Builtin} (hcommand : c.value.command = some word)
    (hbuiltin : handlesBuiltin word = some builtin) {fork : Option Pid}
    (hs : interpreterFork s c.value fork = some s') (hrun : s.exited = false) :
    ∃ m' lost', m.handlesBuiltin c.pointers builtin = some m' ∧ Represents m' s' jobs lost' ∧
      LostWith lost' lost c.value := by
  have hcase : c.value.builtin? = some builtin := by
    rw [Command.builtin?, hcommand, Option.bind_some, hbuiltin]
  have hs' := interpreterFork_builtin hcommand hbuiltin hs hrun
  by_cases hexit : builtin = .exit
  · subst hexit
    rw [if_pos rfl] at hs'
    subst hs'
    exact ⟨{ m with exited := true }, _, rfl, { h with exited := rfl },
      lostWith_leaked lost (.inr hcase)⟩
  · rw [if_neg hexit] at hs'
    obtain ⟨m', hhandles, h'⟩ := h.handlesBuiltin hexit
    exact ⟨m', lost, hhandles, hs' ▸ h', lostWith_self lost (by simp [hcommand, hcase, hexit])⟩

theorem interpreter_spec (hfresh : ∀ m, malloc m ∉ m) (h : Represents m s jobs (c.cells + lost))
    {fork : Option Pid} (hs : interpreterFork s c.value fork = some s') (hrun : s.exited = false) :
    ∃ m' jobs' lost', m.interpreter malloc c.pointers fork = some m' ∧
      Represents m' s' jobs' lost' ∧ LostWith lost' lost c.value := by
  cases hfirst : c.args.head? with
  | none => exact ⟨m, jobs, _, interpreter_wordless h hfirst hs hrun⟩
  | some r =>
    have hhead : c.pointers.args.head? = some r.1 := by rw [head?_pointers, hfirst, Option.map_some]
    have hcommand : c.value.command = some r.2 := by rw [command_value, hfirst, Option.map_some]
    have hread := h.readString (List.mem_append_left _ (List.mem_append_left _
      (List.mem_of_mem_head? hfirst)))
    simp only [MemState.interpreter, hhead, hread, Option.bind_some]
    cases hcase : handlesBuiltin r.2 with
    | some builtin =>
      obtain ⟨m', lost', hhandles, h'⟩ := interpreter_builtin h hcommand hcase hs hrun
      exact ⟨m', jobs, lost', hhandles, h'⟩
    | none =>
      have hbuiltin : c.value.builtin? = none := by
        rw [Command.builtin?, hcommand, Option.bind_some, hcase]
      have hkept : LostWith lost lost c.value := lostWith_self lost (by simp [hcommand, hbuiltin])
      cases fork with
      | none =>
        obtain ⟨m', hfree, h'⟩ := h.freed
        simp only [interpreterFork, hbuiltin, reduceCtorEq, decide_false, Option.some.injEq] at hs
        exact ⟨m', jobs, lost, hfree, by rw [← hs, ← hrun]; exact h', hkept⟩
      | some pid =>
        simp only [interpreterFork, interpreter, hcommand, hcase] at hs
        obtain ⟨hpid, hs⟩ := Option.ite_none_left_eq_some.mp hs
        obtain ⟨m', jobs', hforked, h'⟩ := h.forked hfresh pid
        refine ⟨m', jobs', lost, ?_, ?_, hkept⟩
        · show (if pid = 0 ∨ pid ∈ m.children then none else _) = _
          rw [h.children, if_neg hpid, hforked]
        · have hback : c.value.background = c.background := rfl
          rw [hback] at hs
          split_ifs at hs h' with hbackground <;> cases hs <;> exact h'

theorem Represents.leave (h : Represents m s jobs lost) (others : List Char → List Char) :
    Represents (m.leave others) (s.leave others) jobs lost :=
  { h with stdin := congrArg others h.stdin }

theorem iterate_spec (hfresh : ∀ m, malloc m ∉ m) (h : Represents m s jobs lost)
    {answers : ForkAnswers} (hs : iterateFork s answers = some s') :
    ∃ m' jobs' lost', m.iterate malloc answers = some m' ∧ Represents m' s' jobs' lost' ∧
      LostWith lost' lost (getCommand s.stdin).1 := by
  have hrun := not_exited_of_iterateFork hs
  rw [iterateFork_eq hrun] at hs
  obtain ⟨s₃, hs₃, rfl⟩ := Option.map_eq_some_iff.mp hs
  obtain ⟨m₁, jobs₁, hclean, h₁⟩ := cleanupBackgroundJobs_spec h answers.finished
  obtain ⟨c, m₂, hget, hvalue, h₂⟩ := getCommandIn_spec hfresh h₁.memory s.stdin
  have hstdin : m₁.stdin = s.stdin := h₁.stdin
  rw [add_left_comm] at h₂
  have hread : Represents { m₁ with memory := m₂, stdin := (getCommand s.stdin).2 }
      ⟨(getCommand s.stdin).2, cleanupBackgroundJobs answers.finished s.table, false⟩ jobs₁
      (c.cells + lost) :=
    { h₁ with stdin := rfl, exited := h₁.exited.trans hrun, memory := h₂ }
  rw [← hvalue] at hs₃ ⊢
  obtain ⟨m₃, jobs₃, lost₃, hinterpreter, h₃, hlost⟩ := interpreter_spec hfresh hread hs₃ rfl
  refine ⟨m₃.leave answers.stdin, jobs₃, lost₃, ?_, h₃.leave answers.stdin, hlost⟩
  have hexited : m.exited = false := h.exited.trans hrun
  simp only [MemState.iterate, hexited, hclean, Option.bind_some, hstdin, hget, hinterpreter,
    Bool.false_eq_true, if_false, Option.map_some]

end Rounds

def linesRead (stdin : List Char) (answers : List ForkAnswers) : List (List Char) :=
  trace (fun s _ => (readInput s.stdin).1.text?) iterateFork answers (start stdin)

/-- The strings of the session's lines that nobody frees: of those that begin with a redirection, and
of the one that ends the shell. -/
def leakedStrings (stdin : List Char) (answers : List ForkAnswers) : List (List Char) :=
  (linesRead stdin answers).flatMap fun line => (parseLine line).leaked

theorem leaked_getCommand (stdin : List Char) : (getCommand stdin).1.leaked =
    (readInput stdin).1.text?.toList.flatMap fun line => (parseLine line).leaked := by
  have hempty : Command.empty.leaked = [] := rfl
  unfold getCommand
  rcases readInput stdin with ⟨_ | _ | text, rest⟩ <;> simp [Input.text?, hempty]

theorem run_spec {malloc : Memory → Addr} (hfresh : ∀ m, malloc m ∉ m) {answers : List ForkAnswers}
    {m : MemState} {s s' : State} {jobs : List Job} {lost : Multiset (Addr × Block)}
    (h : Represents m s jobs lost) (hrun : runSchedule iterateFork answers s = some s') :
    ∃ m' jobs' lost', runSchedule (MemState.iterate malloc) answers m = some m' ∧
      Represents m' s' jobs' lost' ∧ lost'.map Prod.snd = lost.map Prod.snd +
        (((trace (fun s _ => (readInput s.stdin).1.text?) iterateFork answers s).flatMap
          fun line => (parseLine line).leaked).map Block.string : Multiset Block) := by
  induction answers generalizing m s jobs lost with
  | nil =>
    obtain rfl := Option.some.inj hrun
    exact ⟨m, jobs, lost, rfl, h, (add_zero _).symm⟩
  | cons a answers ih =>
    obtain ⟨s₁, hs, hrest⟩ := Option.bind_eq_some_iff.mp hrun
    obtain ⟨m₁, jobs₁, lost₁, hm, h₁, hlost₁⟩ := iterate_spec hfresh h hs
    obtain ⟨m₂, jobs₂, lost₂, hmrest, h₂, hlost₂⟩ := ih h₁ hrest
    refine ⟨m₂, jobs₂, lost₂, by rw [runSchedule, hm, Option.bind_some, hmrest], h₂, ?_⟩
    simp only [trace, hs, List.flatMap_append, List.map_append, ← Multiset.coe_add]
    rw [hlost₂, hlost₁, leaked_getCommand, add_assoc]

theorem start_represents (stdin : List Char) : Represents (.start stdin) (start stdin) [] 0 :=
  ⟨rfl, rfl, rfl, rfl, rfl, holds_empty⟩

theorem Represents.card_jobs {m : MemState} {s : State} {jobs : List Job}
    {lost : Multiset (Addr × Block)} (h : Represents m s jobs lost) :
    (jobs.map Job.cells).sum.card =
      (s.table.bgJobs.map fun job => job.command.strings.length + 1).sum := by
  have hcells : ∀ job : Job, job.cells.card = job.entry.command.strings.length + 1 := fun job => by
    rw [Job.cells, Multiset.card_cons, card_cells]
    rfl
  have hjobs : ∀ jobs : List Job, (jobs.map Job.cells).sum.card =
      ((jobs.map Job.entry).map fun job => job.command.strings.length + 1).sum := fun jobs => by
    induction jobs with
    | nil => rfl
    | cons job jobs ih =>
      rw [List.map_cons, List.sum_cons, Multiset.card_add, ih, hcells, List.map_cons, List.map_cons,
        List.sum_cons]
  rw [hjobs, h.entries]

theorem Represents.card {m : MemState} {s : State} {jobs : List Job}
    {lost : Multiset (Addr × Block)} (h : Represents m s jobs lost) : m.memory.keys.card =
      (s.table.bgJobs.map fun job => job.command.strings.length + 1).sum + lost.card := by
  rw [h.memory.card, Multiset.card_add, h.card_jobs]

/-- No session of the shell reads or frees what is not allocated. In memory are the commands of the
background jobs, each with its strings, and beyond them exactly the strings of the lines that begin
with a redirection, or that end the shell. -/
theorem session_memory {malloc : Memory → Addr} (hfresh : ∀ m, malloc m ∉ m) (stdin : List Char)
    {answers : List ForkAnswers} {s : State}
    (hrun : runSchedule iterateFork answers (start stdin) = some s) :
    ∃ m jobs lost, runSchedule (MemState.iterate malloc) answers (.start stdin) = some m ∧
      Represents m s jobs lost ∧
      lost.map Prod.snd = ((leakedStrings stdin answers).map Block.string : Multiset Block) ∧
      m.memory.keys.card =
        (s.table.bgJobs.map fun job => job.command.strings.length + 1).sum + lost.card := by
  obtain ⟨m, jobs, lost, hm, h, hlost⟩ := run_spec hfresh (start_represents stdin) hrun
  exact ⟨m, jobs, lost, hm, h, hlost.trans (zero_add _), h.card⟩

def sampleInput : List Char := "sleep 60 > log &\n< in\nls\n".toList

def sampleAnswers : List ForkAnswers :=
  [⟨fun _ => false, some 7, id⟩, ⟨fun _ => false, none, id⟩, ⟨fun pid => pid = 7, none, id⟩]

theorem session_memory_sample : ∃ s, runSchedule iterateFork sampleAnswers (start sampleInput) = some s ∧
    ∃ m jobs lost,
      runSchedule (MemState.iterate nextAddr) sampleAnswers (.start sampleInput) = some m ∧
      Represents m s jobs lost ∧
      lost.map Prod.snd =
        ((leakedStrings sampleInput sampleAnswers).map Block.string : Multiset Block) ∧
      m.memory.keys.card =
        (s.table.bgJobs.map fun job => job.command.strings.length + 1).sum + lost.card := by
  have hrun : (runSchedule iterateFork sampleAnswers (start sampleInput)).isSome := by
    decide +kernel
  obtain ⟨s, hs⟩ := Option.isSome_iff_exists.mp hrun
  exact ⟨s, hs, session_memory nextAddr_notMem sampleInput hs⟩

theorem strings_length_le_items (items : List Item) :
    (Item.inputs items).length + (Item.outputs items).length ≤
      (items.flatMap Item.tokens).length := by
  induction items with
  | nil => rfl
  | cons item items ih =>
    rw [List.flatMap_cons, List.length_append]
    cases item with
    | background =>
      have hin : Item.inputs (.background :: items) = Item.inputs items := rfl
      have hout : Item.outputs (.background :: items) = Item.outputs items := rfl
      rw [hin, hout]
      omega
    | redirection r =>
      have hone : r.inputFile?.toList.length + r.outputFile?.toList.length = 1 := by
        unfold Redirection.inputFile? Redirection.outputFile?
        split_ifs <;> rfl
      have htwo : (Item.tokens (.redirection r)).length = 2 := rfl
      rw [inputs_redirection, outputs_redirection, List.length_append, List.length_append, htwo]
      omega

theorem parseLine_strings_le (line : List Char) :
    (parseLine line).strings.length ≤ maxTokenArraySize := by
  by_cases hlen : (tokens line).length ≤ maxTokenArraySize
  · rcases parseLine_cases hlen with hempty | ⟨words, items, htokens, -, -, heq⟩
    · rw [hempty]
      exact Nat.zero_le _
    · have hitems := strings_length_le_items items
      have hin : (Item.inputs items).head?.toList.length ≤ (Item.inputs items).length := by
        cases Item.inputs items <;> simp
      have hout : (Item.outputs items).head?.toList.length ≤ (Item.outputs items).length := by
        cases Item.outputs items <;> simp
      rw [htokens, List.length_append] at hlen
      rw [heq, Command.strings, CommandOf.strings, List.length_append, List.length_append]
      dsimp only
      omega
  · have hempty : parseLine line = .empty := by
      simp only [parseLine, if_pos (Nat.lt_of_not_le hlen)]
    rw [hempty]
    exact Nat.zero_le _

theorem getCommand_strings_le (stdin : List Char) :
    (getCommand stdin).1.strings.length ≤ maxTokenArraySize := by
  unfold getCommand
  rcases readInput stdin with ⟨_ | _ | text, rest⟩
  · exact Nat.zero_le _
  · exact Nat.zero_le _
  · exact parseLine_strings_le text

/-- The table is within its array, and the command of each job is one that fits a line. -/
structure Jobs.Bounded (t : Jobs) : Prop where
  tracked : t.Tracked
  length_le : t.bgJobs.length ≤ maxBgJobs
  strings_le : ∀ job ∈ t.bgJobs, job.command.strings.length ≤ maxTokenArraySize

theorem Jobs.Bounded.cleanup {t : Jobs} (h : t.Bounded) (finished : Pid → Bool) :
    (cleanupBackgroundJobs finished t).Bounded where
  tracked := h.tracked.cleanup finished
  length_le := (cleanup_length_le finished h.tracked).trans h.length_le
  strings_le job hjob :=
    h.strings_le job (List.mem_of_mem_filter ((cleanup_perm finished h.tracked).mem_iff.mp hjob))

theorem Jobs.Bounded.add {t : Jobs} (h : t.Bounded) {pid : Pid} (hpid : pid ∉ t.children)
    {command : Command} (hle : command.strings.length ≤ maxTokenArraySize) :
    (t.add pid command).Bounded := by
  refine ⟨h.tracked.add hpid, ?_, fun job hjob => ?_⟩
  · unfold Jobs.add
    split_ifs with hroom
    · rw [List.length_append]
      exact hroom
    · exact h.length_le
  · unfold Jobs.add at hjob
    split_ifs at hjob
    · rcases List.mem_append.mp hjob with hjob | hjob
      · exact h.strings_le job hjob
      · rw [List.mem_singleton.mp hjob]
        exact hle
    · exact h.strings_le job hjob

theorem iterateFork_bounded {s s' : State} {answers : ForkAnswers}
    (hs : iterateFork s answers = some s') (h : s.table.Bounded) : s'.table.Bounded := by
  have hrun := not_exited_of_iterateFork hs
  have hclean := h.cleanup answers.finished
  rw [iterateFork_eq hrun] at hs
  obtain ⟨s₁, hs₁, rfl⟩ := Option.map_eq_some_iff.mp hs
  show s₁.table.Bounded
  cases hfork : answers.fork with
  | some pid =>
    rw [hfork] at hs₁
    obtain ⟨-, -, ⟨-, hpid, htable⟩ | ⟨-, htable⟩⟩ := interpreter_cases hs₁ rfl
    · exact htable ▸ hclean.add hpid (getCommand_strings_le s.stdin)
    · exact htable ▸ hclean
  | none =>
    rw [hfork] at hs₁
    cases hs₁
    exact hclean

theorem run_bounded {stdin : List Char} {answers : List ForkAnswers} {s : State}
    (hrun : runSchedule iterateFork answers (start stdin) = some s) : s.table.Bounded :=
  (reaches_of_runSchedule hrun).invariant (fun s => s.table.Bounded)
    (fun _ _ _ hs h => iterateFork_bounded hs h) ⟨start_tracked stdin, Nat.zero_le _, nofun⟩

/-- However long the session, the blocks of the jobs are no more than there is room for in the table;
what grows is only what nobody frees. -/
theorem session_memory_le {malloc : Memory → Addr} (hfresh : ∀ m, malloc m ∉ m) (stdin : List Char)
    {answers : List ForkAnswers} {s : State}
    (hrun : runSchedule iterateFork answers (start stdin) = some s) :
    ∃ m jobs lost, runSchedule (MemState.iterate malloc) answers (.start stdin) = some m ∧
      Represents m s jobs lost ∧
      (jobs.map Job.cells).sum.card ≤ maxBgJobs * (maxTokenArraySize + 1) ∧
      m.memory.keys.card ≤
        maxBgJobs * (maxTokenArraySize + 1) + (leakedStrings stdin answers).length := by
  obtain ⟨m, jobs, lost, hm, h, hlost⟩ := run_spec hfresh (start_represents stdin) hrun
  have hbounded := run_bounded hrun
  have hsum := List.sum_le_card_nsmul (s.table.bgJobs.map fun job => job.command.strings.length + 1)
    (maxTokenArraySize + 1) fun k hk => by
      obtain ⟨job, hjob, rfl⟩ := List.mem_map.mp hk
      exact Nat.succ_le_succ (hbounded.strings_le job hjob)
  rw [List.length_map, Nat.nsmul_eq_mul] at hsum
  have hjobs := hsum.trans (Nat.mul_le_mul_right _ hbounded.length_le)
  have hcard : lost.card = (leakedStrings stdin answers).length := by
    rw [← Multiset.card_map Prod.snd, hlost.trans (zero_add _), Multiset.coe_card, List.length_map]
    rfl
  refine ⟨m, jobs, lost, hm, h, h.card_jobs.trans_le hjobs, ?_⟩
  rw [h.card, hcard]
  exact Nat.add_le_add_right hjobs _

theorem session_memory_le_sample :
    ∃ s, runSchedule iterateFork sampleAnswers (start sampleInput) = some s ∧
      ∃ m jobs lost,
        runSchedule (MemState.iterate nextAddr) sampleAnswers (.start sampleInput) = some m ∧
        Represents m s jobs lost ∧
        (jobs.map Job.cells).sum.card ≤ maxBgJobs * (maxTokenArraySize + 1) ∧
        m.memory.keys.card ≤ maxBgJobs * (maxTokenArraySize + 1) +
          (leakedStrings sampleInput sampleAnswers).length := by
  have hrun : (runSchedule iterateFork sampleAnswers (start sampleInput)).isSome := by
    decide +kernel
  obtain ⟨s, hs⟩ := Option.isSome_iff_exists.mp hrun
  exact ⟨s, hs, session_memory_le nextAddr_notMem sampleInput hs⟩

end OsLab.Shell
