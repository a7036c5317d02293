import OsLab.Foundation.CText

/-! The commands of the shell: how `get_command` of `parser.c` reads a line and what it makes of
it. -/

namespace OsLab.Shell

open CText

abbrev maxInputSize : Nat := 1024

abbrev maxTokenArraySize : Nat := 256

def inputRedirectionSymbol : List Char := ['<']

def outputRedirectionSymbol : List Char := ['>']

def appendRedirectionSymbol : List Char := ['>', '>']

def backgroundIndicatorSymbol : List Char := ['&']

def specialSymbols : List (List Char) :=
  [inputRedirectionSymbol, outputRedirectionSymbol, appendRedirectionSymbol,
    backgroundIndicatorSymbol]

/-- `args` are those before the terminating NULL. -/
structure Command where
  args : List (List Char)
  inputFile : Option (List Char)
  outputFile : Option (List Char)
  append : Bool
  background : Bool
deriving DecidableEq, Repr

namespace Command

def empty : Command := ⟨[], none, none, false, false⟩

/-- The field `command`, which is `args[0]`. -/
def command (c : Command) : Option (List Char) := c.args.head?

end Command

def isBlank (c : Char) : Bool := c == ' ' || c == '\t'

/-- The tokens that `strtok_r` cuts the line into. -/
def tokens : List Char → List (List Char)
  | [] => []
  | c :: cs =>
    if isBlank c then tokens cs
    else
      match cs with
      | [] => [[c]]
      | d :: _ =>
        if isBlank d then [c] :: tokens cs
        else
          match tokens cs with
          | [] => [[c]]
          | token :: rest => (c :: token) :: rest

/-- The loop over the tokens from the first special symbol on. `none` is an error, after which the
command is empty. -/
def redirections (command : Command) : List (List Char) → Option Command
  | [] => some command
  | token :: rest =>
    if token = inputRedirectionSymbol then
      if command.inputFile ≠ none then none
      else
        match rest with
        | [] => none
        | file :: rest => redirections { command with inputFile := some file } rest
    else if token = outputRedirectionSymbol then
      if command.outputFile ≠ none then none
      else
        match rest with
        | [] => none
        | file :: rest => redirections { command with outputFile := some file } rest
    else if token = appendRedirectionSymbol then
      if command.outputFile ≠ none then none
      else
        match rest with
        | [] => none
        | file :: rest =>
          redirections { command with outputFile := some file, append := true } rest
    else if token = backgroundIndicatorSymbol then
      redirections { command with background := true } rest
    else none

/-- The part of `get_command` after the line has been read. -/
def parseLine (line : List Char) : Command :=
  let tokenArr := tokens line
  if maxTokenArraySize < tokenArr.length then .empty
  else
    -- after 256 words the terminating NULL falls on `input_file`, which is NULL
    let (args, rest) := tokenArr.span fun token => !specialSymbols.contains token
    (redirections { Command.empty with args := args } rest).getD .empty

example : parseLine "sort -r < input.txt >> output.txt &".toList =
    ⟨["sort".toList, "-r".toList], some "input.txt".toList, some "output.txt".toList, true, true⟩ :=
  by decide +kernel

inductive Input where
  | endOfFile
  | tooLong
  | line (text : List Char)
deriving DecidableEq, Repr

def Input.text? : Input → Option (List Char)
  | .line text => some text
  | _ => none

/-- The `fgets` into a buffer for a line of the maximum size with its newline, and the loop that
reads on to the newline if there is none in the buffer. -/
def readInput (stdin : List Char) : Input × List Char :=
  match fgets (maxInputSize + 2) stdin with
  | none => (.endOfFile, stdin)
  | some (buffer, rest) =>
    let input := buffer.takeWhile (· ≠ '\x00')
    match input.getLast? with
    | none => (.line input, rest)
    | some c =>
      if c ≠ '\n' then (.tooLong, (rest.dropWhile (· ≠ '\n')).tail)
      else (.line input.dropLast, rest)

def getCommand (stdin : List Char) : Command × List Char :=
  match readInput stdin with
  | (.line text, rest) => (parseLine text, rest)
  | (_, rest) => (.empty, rest)

theorem takeWhile_notNul {text : List Char} (h : '\x00' ∉ text) :
    text.takeWhile (· ≠ '\x00') = text := by
  refine List.takeWhile_eq_self_iff.mpr fun c hc => ?_
  exact decide_eq_true (ne_of_mem_of_not_mem hc h)

theorem readInput_nil : readInput [] = (.endOfFile, []) := rfl

theorem readInput_line {line rest : List Char} (h : '\n' ∉ line) (hnul : '\x00' ∉ line)
    (hlen : line.length ≤ maxInputSize) :
    readInput (line ++ '\n' :: rest) = (.line line, rest) := by
  have hbuffer : '\x00' ∉ line ++ ['\n'] := by
    rw [List.mem_append, List.mem_singleton, not_or]
    exact ⟨hnul, by decide⟩
  rw [readInput, fgets_of_ne_nil (maxInputSize + 1) (by simp),
    takeLine_line h (Nat.lt_succ_of_le hlen)]
  simp only [takeWhile_notNul hbuffer, List.getLast?_concat, List.dropLast_concat]
  rw [if_neg (not_not_intro rfl)]

theorem readInput_dropped {text rest : List Char} (h : '\n' ∉ text) (hnul : '\x00' ∉ text)
    (hne : text ≠ []) (hlen : text.length ≤ maxInputSize + 1)
    (hend : text.length = maxInputSize + 1 ∨ rest = []) :
    readInput (text ++ rest) = (.tooLong, (rest.dropWhile (· ≠ '\n')).tail) := by
  have hlast : text.getLast hne ≠ '\n' := ne_of_mem_of_not_mem (List.getLast_mem hne) h
  rw [readInput, fgets_of_ne_nil (maxInputSize + 1) (List.append_ne_nil_of_left_ne_nil hne rest),
    takeLine_append h hlen hend]
  simp only [takeWhile_notNul hnul, List.getLast?_eq_some_getLast hne]
  rw [if_pos hlast]

theorem readInput_full {line rest : List Char} (h : '\n' ∉ line) (hnul : '\x00' ∉ line)
    (hlen : maxInputSize < line.length) :
    readInput (line ++ rest) = (.tooLong, (rest.dropWhile (· ≠ '\n')).tail) := by
  have htake : (line.take (maxInputSize + 1)).length = maxInputSize + 1 :=
    List.length_take_of_le hlen
  have hne : line.take (maxInputSize + 1) ≠ [] := by
    refine List.ne_nil_of_length_pos ?_
    rw [htake]
    exact Nat.succ_pos _
  have hdrop : ∀ c ∈ line.drop (maxInputSize + 1), decide (c ≠ '\n') = true := fun c hc =>
    decide_eq_true (ne_of_mem_of_not_mem (List.mem_of_mem_drop hc) h)
  have hread := readInput_dropped
    (fun hmem => h (List.mem_of_mem_take hmem)) (fun hmem => hnul (List.mem_of_mem_take hmem))
    hne htake.le (.inl htake : _ ∨ line.drop (maxInputSize + 1) ++ rest = [])
  rwa [← List.append_assoc, List.take_append_drop, List.dropWhile_append_of_pos hdrop] at hread

theorem readInput_tooLong {line rest : List Char} (h : '\n' ∉ line) (hnul : '\x00' ∉ line)
    (hlen : maxInputSize < line.length) : readInput (line ++ '\n' :: rest) = (.tooLong, rest) := by
  rw [readInput_full h hnul hlen, List.dropWhile_cons_of_neg (by decide), List.tail_cons]

theorem readInput_last {last : List Char} (h : '\n' ∉ last) (hnul : '\x00' ∉ last)
    (hne : last ≠ []) : readInput last = (.tooLong, []) := by
  rw [← List.append_nil last]
  rcases Nat.lt_or_ge maxInputSize last.length with hlen | hlen
  · exact readInput_full h hnul hlen
  · exact readInput_dropped h hnul hne (Nat.le_succ_of_le hlen) (.inr rfl)

end OsLab.Shell
