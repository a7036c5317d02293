import Mathlib.Tactic.Abel
import OsLab.Foundation.Blocks
import OsLab.Shell.Grammar
import OsLab.Shell.MainLoop

/-! The commands of the shell in memory: the strings that `get_command` duplicates, the copies that
the background jobs keep, and what `free_command` frees. -/

namespace OsLab.Shell

open Blocks Interleaving

/-- The fields of a `Command`, over what stands for its strings. -/
structure CommandOf (α : Type) where
  args : List α
  inputFile : Option α
  outputFile : Option α
  append : Bool
  background : Bool

namespace CommandOf

variable {α β : Type}

def empty : CommandOf α := ⟨[], none, none, false, false⟩

/-- In the order in which `free_command` comes to them. -/
def strings (c : CommandOf α) : List α := c.args ++ c.inputFile.toList ++ c.outputFile.toList

def map (f : α → β) (c : CommandOf α) : CommandOf β where
  args := c.args.map f
  inputFile := c.inputFile.map f
  outputFile := c.outputFile.map f
  append := c.append
  background := c.background

def toCommand (c : CommandOf (List Char)) : Command :=
  ⟨c.args, c.inputFile, c.outputFile, c.append, c.background⟩

theorem strings_map (f : α → β) (c : CommandOf α) : (c.map f).strings = c.strings.map f := by
  obtain ⟨args, inputFile, outputFile, append, background⟩ := c
  cases inputFile <;> cases outputFile <;> simp [strings, map]

end CommandOf

abbrev PtrCommand := CommandOf Addr

inductive Block where
  | string (text : List Char)
  | command (c : PtrCommand)

abbrev Memory := Blocks Block

def strdup (malloc : Memory → Addr) (m : Memory) (text : List Char) : Addr × Memory :=
  store malloc m (.string text)

def readString (m : Memory) (a : Addr) : Option (List Char) :=
  match m.lookup a with
  | some (.string text) => some text
  | _ => none

def readCommand (m : Memory) (a : Addr) : Option PtrCommand :=
  match m.lookup a with
  | some (.command c) => some c
  | _ => none

def freeCommand (m : Memory) (c : PtrCommand) : Option Memory := freeAll c.strings m

/-- The loop over the words of `get_command`. -/
def strdupWords (malloc : Memory → Addr) (m : Memory) : List (List Char) → List Addr × Memory
  | [] => ([], m)
  | word :: words =>
    let (a, m) := strdup malloc m word
    let (as, m) := strdupWords malloc m words
    (a :: as, m)

def failed (m : Memory) (c : PtrCommand) : Option (PtrCommand × Memory) :=
  (freeCommand m c).map fun m => (.empty, m)

def redirectionsIn (malloc : Memory → Addr) (m : Memory) (c : PtrCommand) :
    List (List Char) → Option (PtrCommand × Memory)
  | [] => some (c, m)
  | token :: rest =>
    if token = inputRedirectionSymbol then
      if c.inputFile ≠ none then failed m c
      else
        match rest with
        | [] => failed m c
        | file :: rest =>
          let (a, m) := strdup malloc m file
          redirectionsIn malloc m { c with inputFile := some a } rest
    else if token = outputRedirectionSymbol then
      if c.outputFile ≠ none then failed m c
      else
        match rest with
        | [] => failed m c
        | file :: rest =>
          let (a, m) := strdup malloc m file
          redirectionsIn malloc m { c with outputFile := some a } rest
    else if token = appendRedirectionSymbol then
      if c.outputFile ≠ none then failed m c
      else
        match rest with
        | [] => failed m c
        | file :: rest =>
          let (a, m) := strdup malloc m file
          redirectionsIn malloc m { c with outputFile := some a, append := true } rest
    else if token = backgroundIndicatorSymbol then
      redirectionsIn malloc m { c with background := true } rest
    else failed m c

def parseLineIn (malloc : Memory → Addr) (m : Memory) (line : List Char) :
    Option (PtrCommand × Memory) :=
  let tokenArr := tokens line
  if maxTokenArraySize < tokenArr.length then some (.empty, m)
  else
    let (words, rest) := tokenArr.span fun token => !specialSymbols.contains token
    let (args, m) := strdupWords malloc m words
    redirectionsIn malloc m { CommandOf.empty with args } rest

def getCommandIn (malloc : Memory → Addr) (m : Memory) (stdin : List Char) :
    Option (PtrCommand × Memory × List Char) :=
  match readInput stdin with
  | (.line text, rest) => (parseLineIn malloc m text).map fun (c, m) => (c, m, rest)
  | (_, rest) => some (.empty, m, rest)

/-- `bg_jobs` up to `total_bg_job_counter`: the pids, and pointers to the commands. -/
structure MemState where
  stdin : List Char
  memory : Memory
  bgJobs : List (Pid × Addr)
  children : List Pid
  exited : Bool

namespace MemState

def start (stdin : List Char) : MemState := ⟨stdin, ∅, [], [], false⟩

/-- The loop of `cleanup_background_jobs`. -/
def cleanup (finished : Pid → Bool) : (fuel : Nat) → (i : Nat) → MemState → Option MemState
  | 0, _, _ => none
  | fuel + 1, i, s =>
    match s.bgJobs[i]? with
    | none => some s
    | some (pid, a) =>
      match waitpid finished s.children pid with
      | none => cleanup finished fuel (i + 1) s
      | some children =>
        (readCommand s.memory a).bind fun c =>
          (freeCommand s.memory c).bind fun m =>
            (free m a).bind fun m =>
              cleanup finished fuel i
                { s with memory := m, bgJobs := swapRemove s.bgJobs i, children := children }

end MemState

def copyStrings (malloc : Memory → Addr) : List Addr → Memory → Option (List Addr × Memory)
  | [], m => some ([], m)
  | a :: as, m =>
    (readString m a).bind fun text =>
      let (b, m) := strdup malloc m text
      (copyStrings malloc as m).map fun (bs, m) => (b :: bs, m)

def copyCommand (malloc : Memory → Addr) (m : Memory) (c : PtrCommand) : Option (Addr × Memory) :=
  let (a, m) := store malloc m (.command .empty)
  (copyStrings malloc c.args m).bind fun (args, m) =>
    (copyStrings malloc c.inputFile.toList m).bind fun (inputFile, m) =>
      (copyStrings malloc c.outputFile.toList m).map fun (outputFile, m) =>
        (a, m.insert a (.command
          ⟨args, inputFile.head?, outputFile.head?, c.append, c.background⟩))

namespace MemState

def freed (s : MemState) (c : PtrCommand) : Option MemState :=
  (freeCommand s.memory c).map fun m => { s with memory := m }

/-- `cd` reads its argument. -/
def handlesBuiltin (s : MemState) (c : PtrCommand) (builtin : Builtin) : Option MemState :=
  match builtin with
  | .exit => some { s with exited := true }
  | .cd =>
    match c.args[1]? with
    | none => s.freed c
    | some a => (readString s.memory a).bind fun _ => s.freed c
  | .pwd => s.freed c

def forked (malloc : Memory → Addr) (s : MemState) (c : PtrCommand) (pid : Pid) : Option MemState :=
  if ¬ c.background then s.freed c
  else if s.bgJobs.length < maxBgJobs then
    (copyCommand malloc s.memory c).bind fun (a, m) =>
      { s with
        memory := m
        bgJobs := s.bgJobs ++ [(pid, a)]
        children := pid :: s.children }.freed c
  else { s with children := pid :: s.children }.freed c

/-- `fork` is `none` where it fails. -/
def interpreter (malloc : Memory → Addr) (s : MemState) (c : PtrCommand) (fork : Option Pid) :
    Option MemState :=
  match c.args.head? with
  | none => some s
  | some a =>
    (readString s.memory a).bind fun word =>
      match Shell.handlesBuiltin word with
      | some builtin => s.handlesBuiltin c builtin
      | none =>
        match fork with
        | none => s.freed c
        | some pid => if pid = 0 ∨ pid ∈ s.children then none else s.forked malloc c pid

end MemState

/-- What the system has to answer in one round, where it may have no process left. -/
structure ForkAnswers where
  finished : Pid → Bool
  fork : Option Pid
  stdin : List Char → List Char

def MemState.leave (s : MemState) (others : List Char → List Char) : MemState :=
  { s with stdin := others s.stdin }

def MemState.iterate (malloc : Memory → Addr) (s : MemState) (answers : ForkAnswers) :
    Option MemState :=
  if s.exited then none
  else
    (s.cleanup answers.finished (s.bgJobs.length + 1) 0).bind fun s =>
      (getCommandIn malloc s.memory s.stdin).bind fun (c, m, stdin) =>
        (interpreter malloc { s with memory := m, stdin := stdin } c answers.fork).map
          (·.leave answers.stdin)

/-- A round of the shell in which `fork` may fail, so that the command is not run. -/
def iterateFork (s : State) (answers : ForkAnswers) : Option State :=
  match answers.fork with
  | some pid => iterate s ⟨answers.finished, pid, answers.stdin⟩
  | none =>
    if s.exited then none
    else
      let (command, stdin) := getCommand s.stdin
      some ⟨answers.stdin stdin, cleanupBackgroundJobs answers.finished s.table,
        command.builtin? = some .exit⟩

abbrev Stored := CommandOf (Addr × List Char)

namespace CommandOf

def pointers (c : Stored) : PtrCommand := c.map Prod.fst

def value (c : Stored) : Command := (c.map Prod.snd).toCommand

def stringCell (s : Addr × List Char) : Addr × Block := (s.1, .string s.2)

def cells (c : Stored) : Multiset (Addr × Block) := ↑(c.strings.map stringCell)

end CommandOf

open CommandOf

section Memory

variable {malloc : Memory → Addr} {m : Memory} {cells rest : Multiset (Addr × Block)} {c : Stored}

theorem readString_of_holds (h : Holds m cells) {s : Addr × List Char}
    (hs : stringCell s ∈ cells) : readString m s.1 = some s.2 := by
  rw [readString, h.lookup hs]

theorem freeCommand_spec (h : Holds m (c.cells + rest)) :
    ∃ m', freeCommand m c.pointers = some m' ∧ Holds m' rest := by
  obtain ⟨m', hfree, h'⟩ := h.freeAll
  refine ⟨m', ?_, h'⟩
  rw [freeCommand, pointers, strings_map, ← hfree, List.map_map]
  rfl

theorem strdupWords_spec (hfresh : ∀ m, malloc m ∉ m) (h : Holds m rest) (words : List (List Char)) :
    ∃ (stored : List (Addr × List Char)) (m' : Memory), stored.map Prod.snd = words ∧
      strdupWords malloc m words = (stored.map Prod.fst, m') ∧
      Holds m' (↑(stored.map stringCell) + rest) := by
  induction words generalizing m rest with
  | nil => exact ⟨[], m, rfl, rfl, by simpa using h⟩
  | cons word words ih =>
    obtain ⟨stored, m', hwords, heq, h'⟩ := ih (h.store hfresh (.string word))
    refine ⟨(malloc m, word) :: stored, m', by rw [List.map_cons, hwords], ?_, ?_⟩
    · simp only [store] at heq
      simp only [strdupWords, strdup, store, heq, List.map_cons]
    · rw [List.map_cons, ← Multiset.cons_coe, Multiset.cons_add, ← Multiset.add_cons]
      exact h'

def Returns (out : Option (PtrCommand × Memory)) (command : Command)
    (rest : Multiset (Addr × Block)) : Prop :=
  ∃ (c : Stored) (m : Memory), out = some (c.pointers, m) ∧ c.value = command ∧
    Holds m (c.cells + rest)

theorem returns_empty (h : Holds m rest) : Returns (some (.empty, m)) .empty rest :=
  ⟨.empty, m, rfl, rfl, by simpa [CommandOf.cells, strings, CommandOf.empty] using h⟩

theorem failed_spec (h : Holds m (c.cells + rest)) : Returns (failed m c.pointers) .empty rest := by
  obtain ⟨m', hfree, h'⟩ := freeCommand_spec h
  rw [failed, hfree]
  exact returns_empty h'

theorem cells_inputFile (hnone : c.inputFile = none) (s : Addr × List Char) :
    CommandOf.cells { c with inputFile := some s } = stringCell s ::ₘ c.cells := by
  obtain ⟨args, inputFile, outputFile, append, background⟩ := c
  obtain rfl : inputFile = none := hnone
  simp only [CommandOf.cells, strings, Option.toList_some, Option.toList_none, List.append_nil,
    List.map_append, List.map_cons, Multiset.cons_coe, Multiset.coe_eq_coe,
    List.append_assoc, List.singleton_append]
  exact List.perm_middle

theorem cells_outputFile (hnone : c.outputFile = none) (append : Bool) (s : Addr × List Char) :
    CommandOf.cells { c with outputFile := some s, append := append } = stringCell s ::ₘ c.cells := by
  obtain ⟨args, inputFile, outputFile, append', background⟩ := c
  obtain rfl : outputFile = none := hnone
  simp only [CommandOf.cells, strings, Option.toList_some, Option.toList_none, List.append_nil,
    List.map_append, List.map_singleton, Multiset.cons_coe, Multiset.coe_eq_coe]
  exact List.perm_append_singleton _ _

theorem hasFile_value {kind : RedirectionKind} : c.value.HasFile kind ↔
    kind = .input ∧ c.pointers.inputFile ≠ none ∨ kind ≠ .input ∧ c.pointers.outputFile ≠ none := by
  simp [Command.HasFile, value, pointers, CommandOf.map, toCommand]

theorem redirect_input (hfresh : ∀ m, malloc m ∉ m) (h : Holds m (c.cells + rest))
    (hnone : ¬ c.pointers.inputFile ≠ none) (file : List Char) :
    ∃ c' : Stored, c'.pointers = { c.pointers with inputFile := some (malloc m) } ∧
      c'.value = c.value.redirect .input file ∧
      Holds (strdup malloc m file).2 (c'.cells + rest) := by
  have hnone : c.inputFile = none := by simpa [pointers, CommandOf.map] using hnone
  refine ⟨{ c with inputFile := some (malloc m, file) }, rfl, rfl, ?_⟩
  rw [cells_inputFile hnone, Multiset.cons_add]
  exact h.store hfresh (.string file)

theorem redirect_output (hfresh : ∀ m, malloc m ∉ m) (h : Holds m (c.cells + rest))
    (hnone : ¬ c.pointers.outputFile ≠ none) (file : List Char) {kind : RedirectionKind}
    (hkind : kind ≠ .input) :
    ∃ c' : Stored, c'.pointers = { c.pointers with
        outputFile := some (malloc m), append := c.pointers.append || decide (kind = .append) } ∧
      c'.value = c.value.redirect kind file ∧
      Holds (strdup malloc m file).2 (c'.cells + rest) := by
  have hnone : c.outputFile = none := by simpa [pointers, CommandOf.map] using hnone
  refine ⟨{ c with
    outputFile := some (malloc m, file)
    append := c.append || decide (kind = .append) }, rfl, ?_, ?_⟩
  · rw [Command.redirect, if_neg hkind]
    rfl
  · rw [cells_outputFile hnone, Multiset.cons_add]
    exact h.store hfresh (.string file)

theorem redirectionsIn_spec (hfresh : ∀ m, malloc m ∉ m) {p : PtrCommand} (hp : p = c.pointers)
    (h : Holds m (c.cells + rest)) (tokens : List (List Char)) :
    Returns (redirectionsIn malloc m p tokens) ((redirections c.value tokens).getD .empty) rest := by
  have hfails : ∀ {c : Stored} {p : PtrCommand} {m : Memory} {tokens : List (List Char)},
      p = c.pointers → Holds m (c.cells + rest) → redirections c.value tokens = none →
      Returns (failed m p) ((redirections c.value tokens).getD .empty) rest := by
    rintro c p m tokens rfl h hnone
    rw [hnone]
    exact failed_spec h
  fun_induction redirectionsIn malloc m p tokens generalizing c with
  | case1 m p => exact ⟨c, m, by rw [hp], rfl, h⟩
  | case2 m p rest hdup =>
    exact hfails hp h (redirections_twice _ .input _ (hasFile_value.mpr (.inl ⟨rfl, hp ▸ hdup⟩)))
  | case3 m p hnone => exact hfails hp h (redirections_missing _ .input)
  | case4 m p hnone file tokens a m' hdup ih =>
    obtain ⟨c', hc', hvalue, h'⟩ := redirect_input hfresh h (hp ▸ hnone) file
    cases hdup
    rw [show inputRedirectionSymbol = RedirectionKind.input.symbol from rfl,
      redirections_symbol c.value .input file tokens fun hfile => hnone (by
        simpa [hp] using hasFile_value.mp hfile), ← hvalue]
    exact ih (by rw [hc', hp]) h'
  | case5 m p tokens hdup hne =>
    exact hfails hp h (redirections_twice _ .output _
      (hasFile_value.mpr (.inr ⟨by decide, hp ▸ hdup⟩)))
  | case6 m p hnone hne => exact hfails hp h (redirections_missing _ .output)
  | case7 m p hnone file tokens a m' hdup hne ih =>
    obtain ⟨c', hc', hvalue, h'⟩ := redirect_output hfresh h (hp ▸ hnone) file
      (show RedirectionKind.output ≠ .input by decide)
    cases hdup
    rw [show outputRedirectionSymbol = RedirectionKind.output.symbol from rfl,
      redirections_symbol c.value .output file tokens fun hfile => hnone (by
        simpa [hp] using hasFile_value.mp hfile), ← hvalue]
    exact ih (by rw [hc', hp]; simp) h'
  | case8 m p tokens hdup hne hne' =>
    exact hfails hp h (redirections_twice _ .append _
      (hasFile_value.mpr (.inr ⟨by decide, hp ▸ hdup⟩)))
  | case9 m p hnone hne hne' => exact hfails hp h (redirections_missing _ .append)
  | case10 m p hnone file tokens a m' hdup hne hne' ih =>
    obtain ⟨c', hc', hvalue, h'⟩ := redirect_output hfresh h (hp ▸ hnone) file
      (show RedirectionKind.append ≠ .input by decide)
    cases hdup
    rw [show appendRedirectionSymbol = RedirectionKind.append.symbol from rfl,
      redirections_symbol c.value .append file tokens fun hfile => hnone (by
        simpa [hp] using hasFile_value.mp hfile), ← hvalue]
    exact ih (by rw [hc', hp]; simp) h'
  | case11 m p tokens hne hne' hne₃ ih =>
    rw [redirections_background]
    exact @ih { c with background := true } (by rw [hp]; rfl) h
  | case12 m p token tokens hne hne' hne₃ hne₄ =>
    have hkind : redirectionKind? token = none := by simp [redirectionKind?, hne, hne', hne₃]
    exact hfails hp h (redirections_word _ _ hkind hne₄)

theorem parseLineIn_spec (hfresh : ∀ m, malloc m ∉ m) (h : Holds m rest) (line : List Char) :
    Returns (parseLineIn malloc m line) (parseLine line) rest := by
  unfold parseLineIn parseLine
  dsimp only
  split_ifs with hmany
  · exact returns_empty h
  · obtain ⟨stored, m', hwords, hdup, h'⟩ := strdupWords_spec hfresh h
      ((tokens line).span fun token => !specialSymbols.contains token).1
    rw [hdup]
    have hcells : CommandOf.cells { CommandOf.empty with args := stored } =
        ↑(stored.map stringCell) := by
      simp [CommandOf.cells, strings, CommandOf.empty]
    have hspec := @redirectionsIn_spec malloc m' rest { CommandOf.empty with args := stored } hfresh
      _ rfl (hcells ▸ h') ((tokens line).span fun token => !specialSymbols.contains token).2
    rw [← hwords]
    exact hspec

theorem getCommandIn_spec (hfresh : ∀ m, malloc m ∉ m) (h : Holds m rest) (stdin : List Char) :
    ∃ (c : Stored) (m' : Memory),
      getCommandIn malloc m stdin = some (c.pointers, m', (getCommand stdin).2) ∧
      c.value = (getCommand stdin).1 ∧ Holds m' (c.cells + rest) := by
  unfold getCommandIn getCommand
  rcases readInput stdin with ⟨_ | _ | text, left⟩
  · obtain ⟨c, m', hout, hvalue, h'⟩ := returns_empty h
    obtain ⟨hc, rfl⟩ := Prod.mk.inj (Option.some.inj hout)
    exact ⟨c, m, by rw [← hc], hvalue, h'⟩
  · obtain ⟨c, m', hout, hvalue, h'⟩ := returns_empty h
    obtain ⟨hc, rfl⟩ := Prod.mk.inj (Option.some.inj hout)
    exact ⟨c, m, by rw [← hc], hvalue, h'⟩
  · obtain ⟨c, m', hout, hvalue, h'⟩ := parseLineIn_spec hfresh h text
    exact ⟨c, m', by simp only [hout, Option.map_some], hvalue, h'⟩

theorem copyStrings_spec (hfresh : ∀ m, malloc m ∉ m) {cells : Multiset (Addr × Block)}
    (h : Holds m cells) {source : List (Addr × List Char)}
    (hsource : ∀ s ∈ source, stringCell s ∈ cells) :
    ∃ (copied : List (Addr × List Char)) (m' : Memory),
      copyStrings malloc (source.map Prod.fst) m = some (copied.map Prod.fst, m') ∧
      copied.map Prod.snd = source.map Prod.snd ∧
      Holds m' (↑(copied.map stringCell) + cells) := by
  induction source generalizing m cells with
  | nil => exact ⟨[], m, rfl, rfl, by simpa using h⟩
  | cons s source ih =>
    have hread := readString_of_holds h (hsource s List.mem_cons_self)
    obtain ⟨copied, m', hcopy, htexts, h'⟩ := ih (h.store hfresh (.string s.2))
      fun r hr => Multiset.mem_cons_of_mem (hsource r (List.mem_cons_of_mem s hr))
    refine ⟨(malloc m, s.2) :: copied, m', ?_, by rw [List.map_cons, List.map_cons, htexts], ?_⟩
    · simp only [store] at hcopy
      simp only [List.map_cons, copyStrings, hread, Option.bind_some, strdup, store, hcopy,
        Option.map_some]
    · rw [List.map_cons, ← Multiset.cons_coe, Multiset.cons_add, ← Multiset.add_cons]
      exact h'

theorem stringCell_mem {s : Addr × List Char} (hs : s ∈ c.strings) : stringCell s ∈ c.cells + rest :=
  Multiset.mem_add.mpr (.inl (Multiset.mem_coe.mpr (List.mem_map_of_mem hs)))

theorem exists_toList {copied : List (Addr × List Char)} {o : Option (Addr × List Char)}
    (h : copied.map Prod.snd = o.toList.map Prod.snd) :
    ∃ o' : Option (Addr × List Char), copied = o'.toList ∧ o'.map Prod.snd = o.map Prod.snd := by
  cases o with
  | none => exact ⟨none, List.map_eq_nil_iff.mp h, rfl⟩
  | some s =>
    obtain ⟨r, rfl, hr⟩ := List.map_eq_singleton_iff.mp h
    exact ⟨some r, rfl, congrArg some hr⟩

theorem copyCommand_spec (hfresh : ∀ m, malloc m ∉ m) (h : Holds m (c.cells + rest)) :
    ∃ (a : Addr) (copy : Stored) (m' : Memory),
      copyCommand malloc m c.pointers = some (a, m') ∧ copy.value = c.value ∧
      Holds m' (c.cells + ((a, .command copy.pointers) ::ₘ copy.cells + rest)) := by
  have hargs : ∀ s ∈ c.args, stringCell s ∈ c.cells + rest := fun s hs =>
    stringCell_mem (List.mem_append_left _ (List.mem_append_left _ hs))
  have hinput : ∀ s ∈ c.inputFile.toList, stringCell s ∈ c.cells + rest := fun s hs =>
    stringCell_mem (List.mem_append_left _ (List.mem_append_right _ hs))
  have houtput : ∀ s ∈ c.outputFile.toList, stringCell s ∈ c.cells + rest := fun s hs =>
    stringCell_mem (List.mem_append_right _ hs)
  obtain ⟨args, m₁, hcopy₁, hargs', h₁⟩ := copyStrings_spec hfresh
    (h.store hfresh (.command .empty)) fun s hs => Multiset.mem_cons_of_mem (hargs s hs)
  obtain ⟨inputs, m₂, hcopy₂, hinputs, h₂⟩ := copyStrings_spec hfresh h₁ fun s hs =>
    Multiset.mem_add.mpr (.inr (Multiset.mem_cons_of_mem (hinput s hs)))
  obtain ⟨outputs, m₃, hcopy₃, houtputs, h₃⟩ := copyStrings_spec hfresh h₂ fun s hs =>
    Multiset.mem_add.mpr (.inr (Multiset.mem_add.mpr (.inr (Multiset.mem_cons_of_mem
      (houtput s hs)))))
  obtain ⟨inputFile, rfl, hinput'⟩ := exists_toList hinputs
  obtain ⟨outputFile, rfl, houtput'⟩ := exists_toList houtputs
  let copy : Stored := ⟨args, inputFile, outputFile, c.append, c.background⟩
  have hcells : ↑(outputFile.toList.map stringCell) + (↑(inputFile.toList.map stringCell) +
      (↑(args.map stringCell) + (malloc m, Block.command .empty) ::ₘ (c.cells + rest))) =
      (malloc m, Block.command .empty) ::ₘ (copy.cells + (c.cells + rest)) := by
    simp only [copy, CommandOf.cells, strings, List.map_append, ← Multiset.coe_add,
      ← Multiset.singleton_add]
    abel
  rw [hcells] at h₃
  refine ⟨malloc m, copy, m₃.insert (malloc m) (.command copy.pointers), ?_, ?_, ?_⟩
  · have hptr : c.pointers.inputFile.toList = c.inputFile.toList.map Prod.fst := by
      cases hc : c.inputFile <;> simp [pointers, CommandOf.map, hc]
    have hptr' : c.pointers.outputFile.toList = c.outputFile.toList.map Prod.fst := by
      cases hc : c.outputFile <;> simp [pointers, CommandOf.map, hc]
    simp only [store] at hcopy₁
    simp only [copyCommand, store, show c.pointers.args = c.args.map Prod.fst from rfl, hcopy₁,
      Option.bind_some, hptr, hcopy₂, hptr', hcopy₃, Option.map_some]
    cases inputFile <;> cases outputFile <;> rfl
  · simp only [copy, value, CommandOf.map, toCommand, hargs', hinput', houtput']
  · have hcells' : c.cells + ((malloc m, Block.command copy.pointers) ::ₘ copy.cells + rest) =
        (malloc m, .command copy.pointers) ::ₘ (copy.cells + (c.cells + rest)) := by
      simp only [← Multiset.singleton_add]
      abel
    rw [hcells']
    exact h₃.overwrite _

end Memory

end OsLab.Shell
