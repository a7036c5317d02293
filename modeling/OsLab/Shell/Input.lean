import OsLab.Shell.MainLoop

/-! Standard input, line by line: which lines the shell parses, and whether its loop ends. At end of
file `get_command` returns what it returns for an empty line, and `main` asks it again. -/

namespace OsLab.Shell

open CText Interleaving

def untilExit : List (List Char) → List (List Char)
  | [] => []
  | line :: lines => if IsExit line then [line] else line :: untilExit lines

def linesToParse (stdin : List Char) : List (List Char) :=
  untilExit ((linesOf stdin).filter fun line => line.length ≤ maxInputSize)

/-- The loop of `main` ends, whatever `system` answers, and has parsed the lines it should. -/
def HandlesInput (system : Answers → Prop) (stdin : List Char) : Prop :=
  (∃ rounds, ∀ answers s, (∀ a ∈ answers, system a) →
    runSchedule iterate answers (start stdin) = some s → answers.length ≤ rounds) ∧
  ∀ answers s, (∀ a ∈ answers, system a) → runSchedule iterate answers (start stdin) = some s →
    (∀ a, iterate s a = none) →
    trace State.parsedLine? iterate answers (start stdin) = linesToParse stdin

def LeavesStdin (answers : Answers) : Prop := ∀ text, answers.stdin text = text

def EndsByExit (stdin : List Char) : Prop :=
  ∃ line ∈ (splitLines stdin).1, line.length ≤ maxInputSize ∧ IsExit line

instance : DecidablePred EndsByExit := fun _ => inferInstanceAs (Decidable (∃ _ ∈ _, _))

section Lines

variable {line rest last : List Char}

theorem not_endsByExit_last (h : '\n' ∉ last) : ¬ EndsByExit last := by
  rw [EndsByExit, splitLines_last h]
  simp

theorem endsByExit_line (h : '\n' ∉ line) :
    EndsByExit (line ++ '\n' :: rest) ↔
      (line.length ≤ maxInputSize ∧ IsExit line) ∨ EndsByExit rest := by
  simp only [EndsByExit, splitLines_line h, List.mem_cons, exists_eq_or_imp]

theorem notMem_of_line {c : Char} (h : c ∉ line ++ '\n' :: rest) : c ∉ line ∧ c ∉ rest := by
  rw [List.mem_append, List.mem_cons, not_or, not_or] at h
  exact ⟨h.1, h.2.2⟩

theorem linesToParse_exit (h : '\n' ∉ line) (hlen : line.length ≤ maxInputSize)
    (hexit : IsExit line) : linesToParse (line ++ '\n' :: rest) = [line] := by
  simp only [linesToParse, linesOf_line h, List.filter_cons, hlen, decide_true, if_true, untilExit,
    if_pos hexit]

theorem linesToParse_line (h : '\n' ∉ line) (hlen : line.length ≤ maxInputSize)
    (hexit : ¬ IsExit line) :
    linesToParse (line ++ '\n' :: rest) = line :: linesToParse rest := by
  simp only [linesToParse, linesOf_line h, List.filter_cons, hlen, decide_true, if_true, untilExit,
    if_neg hexit]

theorem linesToParse_tooLong (h : '\n' ∉ line) (hlen : maxInputSize < line.length) :
    linesToParse (line ++ '\n' :: rest) = linesToParse rest := by
  simp only [linesToParse, linesOf_line h, List.filter_cons, Nat.not_le_of_lt hlen, decide_false,
    Bool.false_eq_true, if_false]

end Lines

section Runs

variable {s t s' : State} {answers : Answers} {line rest : List Char}

theorem parsedLine_of_readInput {input : Input} (h : readInput s.stdin = (input, rest)) :
    s.parsedLine? answers = input.text? := by rw [State.parsedLine?, h]

theorem iterate_dropped (hs : iterate s answers = some t) (hleaves : LeavesStdin answers)
    (hread : readInput s.stdin = (.tooLong, rest) ∨ readInput s.stdin = (.endOfFile, rest)) :
    s.parsedLine? answers = none ∧ t.stdin = rest ∧ t.exited = false := by
  obtain ⟨hstdin, hexit⟩ := iterate_reads hs
  have hnone : s.parsedLine? answers = none := by
    rcases hread with h | h <;> exact parsedLine_of_readInput h
  refine ⟨hnone, ?_, ?_⟩
  · rcases hread with h | h <;> rw [hstdin, h, hleaves]
  · rw [← Bool.not_eq_true, hexit, hnone]
    simp

theorem iterate_line (hs : iterate s answers = some t) (hleaves : LeavesStdin answers)
    (hread : readInput s.stdin = (.line line, rest)) :
    s.parsedLine? answers = some line ∧ t.stdin = rest ∧ (t.exited = true ↔ IsExit line) := by
  obtain ⟨hstdin, hexit⟩ := iterate_reads hs
  have hline : s.parsedLine? answers = some line := parsedLine_of_readInput hread
  refine ⟨hline, by rw [hstdin, hread, hleaves], ?_⟩
  rw [hexit, hline]
  simp

theorem run_exited {answers : List Answers} (hrun : runSchedule iterate answers s = some s')
    (h : s.exited = true) : answers = [] ∧ s' = s := by
  cases answers with
  | nil => exact ⟨rfl, (Option.some.inj hrun).symm⟩
  | cons a as => simp [runSchedule, iterate_exited h] at hrun

/-- If there is an exit, every run ends there, by when it has parsed the lines before. By induction
on the lines, of which each round takes one. -/
theorem run_lines {stdin : List Char} (hexit : EndsByExit stdin) (hnul : '\x00' ∉ stdin)
    {answers : List Answers} (hleaves : ∀ a ∈ answers, LeavesStdin a) (hstdin : s.stdin = stdin)
    (hs : s.exited = false) (hrun : runSchedule iterate answers s = some s') :
    answers.length ≤ (splitLines stdin).1.length ∧
      ((∀ a, iterate s' a = none) →
        trace State.parsedLine? iterate answers s = linesToParse stdin) := by
  induction stdin using lines_induction generalizing s answers with
  | nil => exact absurd hexit (not_endsByExit_last List.not_mem_nil)
  | last last h => exact absurd hexit (not_endsByExit_last h)
  | line line rest h ih =>
    obtain ⟨hline, hrest⟩ := notMem_of_line hnul
    rw [splitLines_line h, List.length_cons]
    cases answers with
    | nil =>
      obtain ⟨a, -, ha⟩ := exists_iterate hs
      obtain rfl := Option.some.inj hrun
      exact ⟨Nat.zero_le _, fun hend => absurd ha (by simp [hend a])⟩
    | cons a as =>
      obtain ⟨t, ht, htail⟩ := Option.bind_eq_some_iff.mp hrun
      obtain ⟨hfirst, hothers⟩ := List.forall_mem_cons.mp hleaves
      rw [List.length_cons, trace, ht]
      rcases Nat.lt_or_ge maxInputSize line.length with hlong | hlen
      · obtain ⟨hnone, hin, hout⟩ := iterate_dropped ht hfirst
          (.inl (hstdin ▸ readInput_tooLong h hline hlong))
        have hlater : EndsByExit rest :=
          ((endsByExit_line h).mp hexit).resolve_left fun hnow => absurd hnow.1 (by omega)
        obtain ⟨hle, htrace⟩ := ih hlater hrest hothers hin hout htail
        refine ⟨Nat.succ_le_succ hle, fun hend => ?_⟩
        rw [linesToParse_tooLong h hlong, ← htrace hend]
        simp [hnone]
      · obtain ⟨hparsed, hin, hout⟩ := iterate_line ht hfirst (hstdin ▸ readInput_line h hline hlen)
        simp only [hparsed, Option.toList_some, List.singleton_append]
        by_cases hnow : IsExit line
        · obtain ⟨rfl, _⟩ := run_exited htail (hout.mpr hnow)
          refine ⟨by simp, fun _ => ?_⟩
          rw [linesToParse_exit h hlen hnow, trace]
        · have hlater : EndsByExit rest :=
            ((endsByExit_line h).mp hexit).resolve_left fun hexit => hnow hexit.2
          have hgoes : t.exited = false := Bool.eq_false_of_not_eq_true fun ht => hnow (hout.mp ht)
          obtain ⟨hle, htrace⟩ := ih hlater hrest hothers hin hgoes htail
          refine ⟨Nat.succ_le_succ hle, fun hend => ?_⟩
          rw [linesToParse_line h hlen hnow, htrace hend]

theorem iterate_goesOn (hs : iterate s answers = some t) (hleaves : LeavesStdin answers)
    (hexit : ¬ EndsByExit s.stdin) (hnul : '\x00' ∉ s.stdin) :
    t.exited = false ∧ ¬ EndsByExit t.stdin ∧ '\x00' ∉ t.stdin := by
  have hdropped : ∀ rest, ¬ EndsByExit rest → '\x00' ∉ rest →
      readInput s.stdin = (.tooLong, rest) ∨ readInput s.stdin = (.endOfFile, rest) →
      t.exited = false ∧ ¬ EndsByExit t.stdin ∧ '\x00' ∉ t.stdin := by
    intro rest hrest hrestNul hread
    obtain ⟨_, hin, hout⟩ := iterate_dropped hs hleaves hread
    exact ⟨hout, hin ▸ hrest, hin ▸ hrestNul⟩
  have hempty : ¬ EndsByExit [] := not_endsByExit_last List.not_mem_nil
  generalize hstdin : s.stdin = stdin at *
  cases stdin using lines_induction with
  | nil => exact hdropped [] hempty List.not_mem_nil (.inr readInput_nil)
  | last last h hne =>
    exact hdropped [] hempty List.not_mem_nil (.inl (readInput_last h hnul hne))
  | line line rest h =>
    obtain ⟨hline, hrest⟩ := notMem_of_line hnul
    obtain ⟨hfirst, hlater⟩ := not_or.mp (mt (endsByExit_line h).mpr hexit)
    rcases Nat.lt_or_ge maxInputSize line.length with hlong | hlen
    · exact hdropped rest hlater hrest (.inl (readInput_tooLong h hline hlong))
    · obtain ⟨_, hin, hout⟩ := iterate_line hs hleaves (hstdin ▸ readInput_line h hline hlen)
      refine ⟨Bool.eq_false_of_not_eq_true fun ht => hfirst ⟨hlen, hout.mp ht⟩, ?_, ?_⟩
      · exact hin ▸ hlater
      · exact hin ▸ hrest

theorem exists_long_run {system : Answers → Prop} (hleaves : ∀ a, system a → LeavesStdin a)
    (hanswers : ∀ s, s.exited = false → ∃ a, system a ∧ (iterate s a).isSome)
    (hexit : ¬ EndsByExit s.stdin) (hnul : '\x00' ∉ s.stdin) (hs : s.exited = false)
    (rounds : Nat) : ∃ answers s', (∀ a ∈ answers, system a) ∧ answers.length = rounds ∧
      runSchedule iterate answers s = some s' := by
  induction rounds generalizing s with
  | zero => exact ⟨[], s, fun _ ha => absurd ha List.not_mem_nil, rfl, rfl⟩
  | succ rounds ih =>
    obtain ⟨a, ha, ht⟩ := hanswers s hs
    obtain ⟨t, ht⟩ := Option.isSome_iff_exists.mp ht
    obtain ⟨hout, hlater, hrest⟩ := iterate_goesOn ht (hleaves a ha) hexit hnul
    obtain ⟨as, s', has, hlen, hrun⟩ := ih hlater hrest hout
    refine ⟨a :: as, s', List.forall_mem_cons.mpr ⟨ha, has⟩, by rw [List.length_cons, hlen], ?_⟩
    rw [runSchedule, ht]
    exact hrun

end Runs

section Exact

variable {system : Answers → Prop} {stdin : List Char}

theorem not_handlesInput (hleaves : ∀ a, system a → LeavesStdin a)
    (hanswers : ∀ s, s.exited = false → ∃ a, system a ∧ (iterate s a).isSome)
    (hexit : ¬ EndsByExit stdin) (hnul : '\x00' ∉ stdin) : ¬ HandlesInput system stdin := by
  rintro ⟨⟨rounds, hrounds⟩, _⟩
  obtain ⟨answers, s, hall, hlen, hrun⟩ :=
    exists_long_run (s := start stdin) hleaves hanswers hexit hnul rfl (rounds + 1)
  have hle := hrounds answers s hall hrun
  omega

/-- `system` stands for what the system and the children may do: they leave standard input to the
shell, and there is always a pid for a child. -/
theorem handlesInput_iff (hleaves : ∀ a, system a → LeavesStdin a)
    (hanswers : ∀ s, s.exited = false → ∃ a, system a ∧ (iterate s a).isSome)
    (hnul : '\x00' ∉ stdin) : HandlesInput system stdin ↔ EndsByExit stdin := by
  constructor
  · intro h
    by_contra hexit
    exact not_handlesInput hleaves hanswers hexit hnul h
  · intro hexit
    have hall : ∀ answers : List Answers, (∀ a ∈ answers, system a) → ∀ a ∈ answers, LeavesStdin a :=
      fun answers h a ha => hleaves a (h a ha)
    exact ⟨⟨_, fun answers s h hrun => (run_lines hexit hnul (hall answers h) rfl rfl hrun).1⟩,
      fun answers s h hrun => (run_lines hexit hnul (hall answers h) rfl rfl hrun).2⟩

end Exact

theorem handlesInput_exitLine : HandlesInput LeavesStdin "ls -l\nexit\n".toList :=
  (handlesInput_iff (fun _ h => h) (fun _ h => exists_iterate h) (by decide)).mpr
    (by decide +kernel)

/-- The last line is not read without a newline, and the end of the file does not end the loop. -/
theorem unendedExit_not_handled : ¬ HandlesInput LeavesStdin "ls -l\nexit".toList :=
  not_handlesInput (fun _ h => h) (fun _ h => exists_iterate h) (by decide +kernel) (by decide)

end OsLab.Shell
