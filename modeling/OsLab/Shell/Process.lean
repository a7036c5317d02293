import OsLab.Foundation.Descriptors
import OsLab.Shell.Grammar
import OsLab.Shell.MainLoop

/-! The child that `interpreter` forks for a command: its redirections and the program it becomes.
The input is opened before the output, wherever the two stand on the line. -/

namespace OsLab.Shell

variable {W F : Type*}

inductive Status where
  | exited (code : ℕ)
  | signaled (signal : ℕ)
deriving DecidableEq, Repr

/-- What the system does with the files `W` of which processes have files `F` open. `openWrite` is
`open` with O_CREAT, and with O_APPEND or else with O_TRUNC; `execvp` is `none` if it returns. What
can be opened for reading can be opened so after a file has been opened for writing. -/
structure System (W F : Type*) where
  openRead : Token → W → Option F
  openWrite : (append : Bool) → Token → W → Option (F × W)
  execvp : List Token → Descriptors F → W → Option (W × Status)
  openRead_of_openWrite : ∀ {path path' append w w' f g}, openRead path w = some f →
    openWrite append path' w = some (g, w') → openRead path w' = some f

abbrev stdinFileno : ℕ := 0

abbrev stdoutFileno : ℕ := 1

abbrev Setting (W F : Type*) := Descriptors F × W

/-- `if (command->input_file != NULL)`. An error leaves the files that it is thrown with. -/
def redirectInput (sys : System W F) (c : Command) (s : Setting W F) : Except W (Setting W F) :=
  match c.inputFile with
  | none => .ok s
  | some path =>
    match sys.openRead path s.2 with
    | none => .error s.2
    | some fd => .ok (s.1.redirect stdinFileno fd, s.2)

/-- `if (command->output_file != NULL)` -/
def redirectOutput (sys : System W F) (c : Command) (s : Setting W F) : Except W (Setting W F) :=
  match c.outputFile with
  | none => .ok s
  | some path =>
    match sys.openWrite c.append path s.2 with
    | none => .error s.2
    | some (fd, files) => .ok (s.1.redirect stdoutFileno fd, files)

def setUp (sys : System W F) (c : Command) (s : Setting W F) : Except W (Setting W F) :=
  redirectInput sys c s >>= redirectOutput sys c

def finish (sys : System W F) (args : List Token) : Except W (Setting W F) → W × Status
  | .error files => (files, .exited 1)
  | .ok s => (sys.execvp args s.1 s.2).getD (s.2, .exited 127)

/-- The branch of `interpreter` with `pid == 0`. -/
def child (sys : System W F) (c : Command) (s : Setting W F) : W × Status :=
  finish sys c.args (setUp sys c s)

/-- The code in the message of the parent, which waits for the child if it is in the foreground. -/
def exitMessage : Status → Option ℕ
  | .exited code => if code ≠ 0 then some code else none
  | .signaled _ => none

/-- What comes of the fork: the files, and what the parent reports. Only a command that is no builtin
is forked for, and only a child in the foreground reported on. -/
def forked (sys : System W F) (c : Command) (s : Setting W F) : Option (W × Option ℕ) :=
  if c.command = none ∨ c.builtin? ≠ none then none
  else
    let (files, status) := child sys c s
    some (files, if c.background then none else exitMessage status)

namespace Redirection

def perform (sys : System W F) (s : Setting W F) (r : Redirection) : Except W (Setting W F) :=
  match r.kind with
  | .input =>
    match sys.openRead r.file s.2 with
    | none => .error s.2
    | some f => .ok (s.1.update stdinFileno (some f), s.2)
  | kind =>
    match sys.openWrite (kind = .append) r.file s.2 with
    | none => .error s.2
    | some (f, files) => .ok (s.1.update stdoutFileno (some f), files)

end Redirection

namespace Line

def setting (sys : System W F) (l : Line) (s : Setting W F) : Except W (Setting W F) :=
  l.redirections.foldlM (Redirection.perform sys) s

/-- The line has the output before an input that cannot be opened, and the output makes a
difference to the files. -/
def Misordered (sys : System W F) (l : Line) (files : W) : Prop :=
  ∃ r r', l.redirections = [r, r'] ∧ r.kind ≠ .input ∧ sys.openRead r'.file files = none ∧
    ∃ f files', sys.openWrite (r.kind = .append) r.file files = some (f, files') ∧ files' ≠ files

end Line

section Perform

variable {sys : System W F} {c : Command} {s s' : Setting W F} {r r' : Redirection} {fd : ℕ}

theorem perform_input (hkind : r.kind = .input) :
    r.perform sys s = match sys.openRead r.file s.2 with
      | none => .error s.2
      | some f => .ok (s.1.update stdinFileno (some f), s.2) := by
  rw [Redirection.perform, hkind]

theorem perform_output (hkind : r.kind ≠ .input) :
    r.perform sys s = match sys.openWrite (r.kind = .append) r.file s.2 with
      | none => .error s.2
      | some (f, files) => .ok (s.1.update stdoutFileno (some f), files) := by
  obtain ⟨kind, file⟩ := r
  cases kind with
  | input => exact absurd rfl hkind
  | output => rfl
  | append => rfl

theorem perform_isOpen (hs : r.perform sys s = .ok s') (h : s.1.IsOpen fd) : s'.1.IsOpen fd := by
  by_cases hkind : r.kind = .input
  · rw [perform_input hkind] at hs
    cases hread : sys.openRead r.file s.2 with
    | none => simp [hread] at hs
    | some f =>
      simp only [hread, Except.ok.injEq] at hs
      exact hs ▸ h.update f
  · rw [perform_output hkind] at hs
    cases hwrite : sys.openWrite (r.kind = .append) r.file s.2 with
    | none => simp [hwrite] at hs
    | some w =>
      simp only [hwrite, Except.ok.injEq] at hs
      exact hs ▸ h.update w.1

theorem redirectInput_eq (hopen : s.1.IsOpen stdinFileno) (hkind : r.kind = .input)
    (hfile : c.inputFile = some r.file) : redirectInput sys c s = r.perform sys s := by
  rw [perform_input hkind, redirectInput, hfile]
  cases hread : sys.openRead r.file s.2 with
  | none => simp [hread]
  | some f => simp [hread, Descriptors.redirect_eq hopen]

theorem redirectOutput_eq (hopen : s.1.IsOpen stdoutFileno) (hkind : r.kind ≠ .input)
    (hfile : c.outputFile = some r.file) (happend : c.append = decide (r.kind = .append)) :
    redirectOutput sys c s = r.perform sys s := by
  rw [perform_output hkind, redirectOutput, hfile, happend]
  cases hwrite : sys.openWrite (r.kind = .append) r.file s.2 with
  | none => simp [hwrite]
  | some w => simp [hwrite, Descriptors.redirect_eq hopen]

theorem redirectInput_none (h : c.inputFile = none) : redirectInput sys c s = .ok s := by
  rw [redirectInput, h]

theorem redirectOutput_none (h : c.outputFile = none) : redirectOutput sys c s = .ok s := by
  rw [redirectOutput, h]

theorem perform_swap_iff (hkind : r.kind ≠ .input) (hkind' : r'.kind = .input) :
    (r'.perform sys s >>= r.perform sys) = (r.perform sys s >>= r'.perform sys) ↔
      ¬ (sys.openRead r'.file s.2 = none ∧ ∃ f files',
        sys.openWrite (r.kind = .append) r.file s.2 = some (f, files') ∧ files' ≠ s.2) := by
  rw [perform_input hkind', perform_output hkind]
  cases hread : sys.openRead r'.file s.2 with
  | some f =>
    -- the input is there, and it still is when the output has been opened
    refine iff_of_true ?_ fun h => Option.some_ne_none f h.1
    show r.perform sys (s.1.update stdinFileno (some f), s.2) = _
    rw [perform_output hkind]
    cases hwrite : sys.openWrite (r.kind = .append) r.file s.2 with
    | none => rfl
    | some w =>
      obtain ⟨g, files⟩ := w
      have hread' := sys.openRead_of_openWrite hread hwrite
      show _ = r'.perform sys (s.1.update stdoutFileno (some g), files)
      simp only [perform_input hkind', hread']
      rw [Descriptors.update_comm _ _ _ (by decide : stdinFileno ≠ stdoutFileno)]
  | none =>
    cases hwrite : sys.openWrite (r.kind = .append) r.file s.2 with
    | none => exact iff_of_true rfl fun h => by simp at h
    | some w =>
      obtain ⟨g, files⟩ := w
      have hiff : Except.error s.2 = r'.perform sys (s.1.update stdoutFileno (some g), files) ↔
          files = s.2 := by
        rw [perform_input hkind']
        constructor
        · intro h
          cases hread' : sys.openRead r'.file files with
          | none => simpa [hread', eq_comm] using h
          | some f => simp [hread'] at h
        · rintro rfl
          rw [hread]
      refine hiff.trans ⟨?_, fun h => ?_⟩
      · rintro hfiles ⟨-, f, files', hw, hne⟩
        cases hw
        exact hne hfiles
      · by_contra hne
        exact h ⟨rfl, g, files, rfl, hne⟩

end Perform

section Lines

variable {sys : System W F} {c : Command} {s : Setting W F} {l : Line} {r r' : Redirection}

theorem setUp_of_no_input (h : c.inputFile = none) : setUp sys c s = redirectOutput sys c s := by
  rw [setUp, redirectInput_none h]
  rfl

theorem setUp_of_no_output (h : c.outputFile = none) : setUp sys c s = redirectInput sys c s := by
  have hpure : redirectOutput sys c = pure := by
    funext s
    exact redirectOutput_none h
  rw [setUp, hpure, bind_pure]

theorem setUp_eq_perform (hin : s.1.IsOpen stdinFileno) (hout : s.1.IsOpen stdoutFileno)
    (hkind : r.kind = .input) (hfile : c.inputFile = some r.file) (hkind' : r'.kind ≠ .input)
    (hfile' : c.outputFile = some r'.file) (happend : c.append = decide (r'.kind = .append)) :
    setUp sys c s = (r.perform sys s >>= r'.perform sys) := by
  rw [setUp, redirectInput_eq hin hkind hfile]
  cases hs : r.perform sys s with
  | error files => rfl
  | ok s' => exact redirectOutput_eq (perform_isOpen hs hout) hkind' hfile' happend

namespace Line

theorem setting_singleton (hl : l.redirections = [r]) : l.setting sys s = r.perform sys s := by
  rw [setting, hl, List.foldlM_cons]
  exact bind_pure _

theorem setting_pair (hl : l.redirections = [r, r']) :
    l.setting sys s = (r.perform sys s >>= r'.perform sys) := by
  rw [setting, hl, List.foldlM_cons]
  refine congrArg (r.perform sys s >>= ·) ?_
  funext s'
  rw [List.foldlM_cons]
  exact bind_pure _

theorem Valid.redirections_cases (h : l.Valid) :
    l.redirections = [] ∨ (∃ r, l.redirections = [r]) ∨
      ∃ r r', l.redirections = [r, r'] ∧ (r.kind = .input ↔ r'.kind ≠ .input) := by
  obtain ⟨words, redirections, background⟩ := l
  have hin : (redirections.filterMap Redirection.inputFile?).length ≤ 1 := h.inputs
  have hout : (redirections.filterMap Redirection.outputFile?).length ≤ 1 := h.outputs
  match redirections with
  | [] => exact .inl rfl
  | [r] => exact .inr (.inl ⟨r, rfl⟩)
  | [r, r'] =>
    refine .inr (.inr ⟨r, r', rfl, ?_⟩)
    by_cases hr : r.kind = .input <;> by_cases hr' : r'.kind = .input <;>
      simp [Redirection.inputFile?, Redirection.outputFile?, hr, hr'] at hin hout ⊢
  | r :: r' :: r'' :: rest =>
    by_cases hr : r.kind = .input <;> by_cases hr' : r'.kind = .input <;>
      by_cases hr'' : r''.kind = .input <;>
      simp [Redirection.inputFile?, Redirection.outputFile?, hr, hr', hr''] at hin hout

theorem misordered_pair (hl : l.redirections = [r, r']) (files : W) :
    l.Misordered sys files ↔ r.kind ≠ .input ∧ sys.openRead r'.file files = none ∧ ∃ f files',
      sys.openWrite (r.kind = .append) r.file files = some (f, files') ∧ files' ≠ files := by
  constructor
  · rintro ⟨r₁, r₁', hl₁, hrest⟩
    obtain ⟨rfl, rfl⟩ : r = r₁ ∧ r' = r₁' := by simpa using hl.symm.trans hl₁
    exact hrest
  · exact fun h => ⟨r, r', hl, h⟩

theorem not_misordered_of_lt (hlt : l.redirections.length < 2) (files : W) :
    ¬ l.Misordered sys files := by
  rintro ⟨r, r', hl, -⟩
  rw [hl] at hlt
  exact lt_irrefl 2 hlt

end Line

theorem redirectInput_files (sys : System W F) (c : Command) (s : Setting W F) :
    redirectInput sys c s = .error s.2 ∨ ∃ t, redirectInput sys c s = .ok (t, s.2) := by
  unfold redirectInput
  split
  · exact .inr ⟨s.1, rfl⟩
  · split
    · exact .inl rfl
    · exact .inr ⟨_, rfl⟩

theorem redirectOutput_error {files : W} (h : redirectOutput sys c s = .error files) :
    files = s.2 := by
  unfold redirectOutput at h
  split at h
  · cases h
  · split at h
    · exact (Except.error.inj h).symm
    · cases h

theorem setUp_error {files : W} (h : setUp sys c s = .error files) : files = s.2 := by
  rw [setUp] at h
  rcases redirectInput_files sys c s with hs | ⟨t, hs⟩
  · rw [hs] at h
    exact (Except.error.inj h).symm
  · rw [hs] at h
    exact redirectOutput_error (s := (t, s.2)) h

theorem setUp_eq_iff (h : l.Valid) (hin : s.1.IsOpen stdinFileno) (hout : s.1.IsOpen stdoutFileno) :
    setUp sys l.command s = l.setting sys s ↔ ¬ l.Misordered sys s.2 := by
  rcases h.redirections_cases with hl | ⟨r, hl⟩ | ⟨r, r', hl, hkinds⟩
  · refine iff_of_true ?_ (Line.not_misordered_of_lt (by simp [hl]) s.2)
    rw [setUp_of_no_input (by simp [Line.command, hl]), Line.setting, hl]
    exact redirectOutput_none (by simp [Line.command, hl])
  · refine iff_of_true ?_ (Line.not_misordered_of_lt (by simp [hl]) s.2)
    rw [Line.setting_singleton hl]
    by_cases hkind : r.kind = .input
    · rw [setUp_of_no_output (by simp [Line.command, hl, Redirection.outputFile?, hkind])]
      exact redirectInput_eq hin hkind (by simp [Line.command, hl, Redirection.inputFile?, hkind])
    · rw [setUp_of_no_input (by simp [Line.command, hl, Redirection.inputFile?, hkind])]
      exact redirectOutput_eq hout hkind
        (by simp [Line.command, hl, Redirection.outputFile?, hkind]) (by simp [Line.command, hl])
  · rw [Line.setting_pair hl, Line.misordered_pair hl]
    by_cases hkind : r.kind = .input
    · have hkind' := hkinds.mp hkind
      refine iff_of_true ?_ fun h => h.1 hkind
      exact setUp_eq_perform hin hout hkind
        (by simp [Line.command, hl, Redirection.inputFile?, hkind]) hkind'
        (by simp [Line.command, hl, Redirection.outputFile?, hkind, hkind'])
        (by simp [Line.command, hl, hkind])
    · have hkind' : r'.kind = .input := by_contra fun hne => hkind (hkinds.mpr hne)
      rw [setUp_eq_perform hin hout hkind'
        (by simp [Line.command, hl, Redirection.inputFile?, hkind, hkind']) hkind
        (by simp [Line.command, hl, Redirection.outputFile?, hkind])
        (by simp [Line.command, hl, hkind']), perform_swap_iff hkind hkind']
      exact not_congr ⟨fun h => ⟨hkind, h⟩, fun h => h.2⟩

theorem setUp_of_misordered (h : l.Valid) (hin : s.1.IsOpen stdinFileno)
    (hmis : l.Misordered sys s.2) : setUp sys l.command s = .error s.2 := by
  obtain ⟨r, r', hl, hkind, hread, -⟩ := hmis
  have hkind' : r'.kind = .input := by
    rcases h.redirections_cases with hl' | ⟨r₁, hl'⟩ | ⟨r₁, r₁', hl', hkinds⟩
    · cases hl.symm.trans hl'
    · cases hl.symm.trans hl'
    · obtain ⟨rfl, rfl⟩ : r = r₁ ∧ r' = r₁' := by simpa using hl.symm.trans hl'
      exact by_contra fun hne => hkind (hkinds.mpr hne)
  rw [setUp, redirectInput_eq hin hkind'
      (by simp [Line.command, hl, Redirection.inputFile?, hkind, hkind']),
    perform_input hkind', hread]
  rfl

/-- What the child makes of the redirections of a line that has no builtin, and what is left of it. -/
theorem getCommand_child (sys : System W F) {line rest : List Char} (hnewline : '\n' ∉ line)
    (hnul : '\x00' ∉ line) (hlen : line.length ≤ maxInputSize)
    (hcount : (tokens line).length ≤ maxTokenArraySize) (hvalid : l.Valid)
    (htokens : tokens line = l.tokens) (hbuiltin : l.command.builtin? = none)
    (hin : s.1.IsOpen stdinFileno) (hout : s.1.IsOpen stdoutFileno) :
    let c := (getCommand (line ++ '\n' :: rest)).1
    (setUp sys c s = l.setting sys s ↔ ¬ l.Misordered sys s.2) ∧
      (∀ files, setUp sys c s = .error files → files = s.2) ∧
      (l.Misordered sys s.2 → forked sys c s = some (s.2, if l.background then none else some 1)) ∧
      (¬ l.Misordered sys s.2 → child sys c s = finish sys l.words (l.setting sys s)) := by
  have hget : (getCommand (line ++ '\n' :: rest)).1 = l.command := by
    rw [getCommand, readInput_line hnewline hnul hlen]
    exact parseLine_of_valid hcount hvalid htokens
  rw [hget]
  have hiff : setUp sys l.command s = l.setting sys s ↔ ¬ l.Misordered sys s.2 :=
    setUp_eq_iff hvalid hin hout
  refine ⟨hiff, fun files => setUp_error, fun hmis => ?_, fun hmis => ?_⟩
  · have hfork : ¬ (l.command.command = none ∨ l.command.builtin? ≠ none) := by
      rintro (hnone | hsome)
      · exact hvalid.words_ne (List.head?_eq_none_iff.mp hnone)
      · exact hsome hbuiltin
    rw [forked, if_neg hfork, child, setUp_of_misordered hvalid hin hmis]
    rfl
  · rw [child, hiff.mpr hmis]
    rfl

end Lines

abbrev Directory := Token → Option (List Char)

abbrev OpenFile := Token × Bool

def Directory.written (append : Bool) (path : Token) (d : Directory) : Directory :=
  Function.update d path (some (if append then (d path).getD [] else []))

def directorySystem : System Directory OpenFile where
  openRead path d := (d path).map fun _ => (path, false)
  openWrite append path d := some ((path, true), d.written append path)
  execvp _ _ d := some (d, .exited 0)
  openRead_of_openWrite := by
    intro path path' append d d' f g hread hwrite
    obtain ⟨content, hcontent, rfl⟩ := Option.map_eq_some_iff.mp hread
    obtain ⟨-, rfl⟩ := Prod.mk.inj (Option.some.inj hwrite)
    rcases eq_or_ne path path' with rfl | hne
    · rw [Directory.written, Function.update_self]
      rfl
    · rw [Directory.written, Function.update_of_ne hne, hcontent]
      rfl

def misorderedLine : Line :=
  ⟨["true".toList], [⟨.output, "out".toList⟩, ⟨.input, "in".toList⟩], false⟩

def terminal : Descriptors OpenFile :=
  .ofList (List.replicate 3 ("/dev/tty".toList, true))

theorem misorderedLine_valid : misorderedLine.Valid := by
  constructor <;> decide

/-- In an empty directory the output file is not created. -/
theorem getCommand_child_sample :
    forked directorySystem (getCommand ("true > out < in".toList ++ ['\n'])).1
      (terminal, fun _ => none) = some (fun _ => none, some 1) := by
  have hmis : misorderedLine.Misordered directorySystem fun _ => none := by
    refine ⟨_, _, rfl, by decide, rfl, _, _, rfl, fun h => ?_⟩
    have hout := congrFun h "out".toList
    rw [Directory.written, Function.update_self] at hout
    cases hout
  have hnewline : '\n' ∉ "true > out < in".toList := by decide
  exact (getCommand_child (s := (terminal, fun _ => none)) directorySystem hnewline (by decide)
    (by decide) (by decide) misorderedLine_valid (by decide) (by decide) rfl rfl).2.2.1 hmis

end OsLab.Shell
