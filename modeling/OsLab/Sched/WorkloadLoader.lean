import Mathlib
import OsLab.Foundation.CScan
import OsLab.Sched.Process

/-! The loaders of `scheduler.c`, which append the processes of a workload to the scheduler's
table. Neither looks at what `sscanf` returns. -/

namespace OsLab.Sched

open CText

def maxProcesses : Nat := 256

/-- A record of a workload, and the variables that `sscanf` stores one in. -/
structure Record where
  pid : List Char
  arrivalTime : Int
  burstTime : Int
deriving DecidableEq, Repr

def Record.process (r : Record) : Process := constructProcess r.pid r.arrivalTime r.burstTime

/-- `processes` of the scheduler's state, up to `num_processes`. -/
structure ProcessTable where
  processes : List Process
  length_le : processes.length ≤ maxProcesses

def ProcessTable.empty : ProcessTable := ⟨[], Nat.zero_le _⟩

inductive WorkloadFault where
  | cannotOpen
  | tableFull
deriving DecidableEq, Repr

def ProcessTable.append (t : ProcessTable) (p : Process) : Except WorkloadFault ProcessTable :=
  if h : t.processes.length < maxProcesses then
    .ok ⟨t.processes ++ [p], by rw [List.length_append]; exact h⟩
  else .error .tableFull

/-- `sscanf` with `%15[^<stop>]`, `%d` and `%d`, where `separator` is what the format has in front
of a number. What is not reached keeps its value. -/
def Record.scan (v : Record) (stop : Char) (separator : List Char → Option (List Char))
    (text : List Char) : Record :=
  match scanUntil (pidLength - 1) stop text with
  | none => v
  | some (pid, rest) =>
    match (separator rest).bind scanD with
    | none => { v with pid := pid }
    | some (arrivalTime, rest) =>
      match (separator rest).bind scanD with
      | none => { v with pid := pid, arrivalTime := arrivalTime }
      | some (burstTime, _) => ⟨pid, arrivalTime, burstTime⟩

def skipBlanks (text : List Char) : Option (List Char) := some (text.dropWhile isSpace)

def skipColon : List Char → Option (List Char)
  | ':' :: rest => some rest
  | _ => none

def skipsLine (line : List Char) : Bool :=
  match line.dropWhile isSpace with
  | [] => true
  | firstChar :: _ => firstChar == '#'

def loadProcessLine (s : ProcessTable × Record) (line : List Char) :
    Except WorkloadFault (ProcessTable × Record) :=
  let line := stripNewline line
  if skipsLine line then .ok s
  else
    let v := s.2.scan ' ' skipBlanks line
    (s.1.append v.process).map fun t => (t, v)

abbrev lineSize : Nat := 256

/-- `stack` is what the variables hold before anything is stored in them. -/
def getProcessesFromFile (t : ProcessTable) (stack : Record) (file : Option (List Char)) :
    Except WorkloadFault ProcessTable :=
  match file with
  | none => .error .cannotOpen
  | some text =>
    ((readLines lineSize text.length text).foldlM loadProcessLine (t, stack)).map Prod.fst

/-- The tokens of `strtok`. -/
def recordTokens (processStr : List Char) : List (List Char) :=
  (processStr.splitOn ';').filter (· ≠ [])

def loadTokens : ProcessTable → (Nat → Record) → List (List Char) →
    Except WorkloadFault ProcessTable
  | t, _, [] => .ok t
  | t, stack, token :: tokens =>
    if t.processes.length < maxProcesses then do
      let t ← t.append ((stack 0).scan ':' skipColon token).process
      loadTokens t (fun round => stack (round + 1)) tokens
    else .ok t

def getProcessesFromString (t : ProcessTable) (stack : Nat → Record) (processStr : List Char) :
    Except WorkloadFault ProcessTable :=
  loadTokens t stack (recordTokens processStr)

/-- The record that the text is: a pid, the character `stop`, a number, a character that may be
`between` the numbers, and a number. The numbers are exact. -/
def recordOf (stop : Char) (between : Char → Bool) (text : List Char) : Option Record :=
  match text.span (· ≠ stop) with
  | (_, []) => none
  | (pid, _ :: rest) =>
    if pid = [] ∨ pidLength ≤ pid.length ∨ '\x00' ∈ pid then none
    else
      match scanInt rest with
      | some (arrivalTime, c :: rest) =>
        if between c then
          match scanInt rest with
          | some (burstTime, rest) =>
            if rest.all isSpace then some ⟨pid, arrivalTime, burstTime⟩ else none
          | none => none
        else none
      | _ => none

def fileRecord (line : List Char) : Option Record :=
  match line with
  | [] => none
  | c :: _ => if isSpace c ∨ c = '#' then none else recordOf ' ' isSpace line

def stringRecord (token : List Char) : Option Record := recordOf ':' (· == ':') token

def Record.stored (r : Record) : Record :=
  ⟨r.pid, toInt (toLong r.arrivalTime), toInt (toLong r.burstTime)⟩

def Record.Fits (r : Record) : Prop := FitsInt r.arrivalTime ∧ FitsInt r.burstTime

instance : DecidablePred Record.Fits := fun _ => inferInstanceAs (Decidable (_ ∧ _))

/-- The workload `124 0 120` and `131 10 60`, in both forms. -/
example : (linesOf "# pid\n124 0 120\n131 10 60 \n".toList).filterMap fileRecord =
    (recordTokens "124:0:120;131:10:60".toList).filterMap stringRecord := by decide +kernel

section Records

variable {stop : Char} {between : Char → Bool} {separator : List Char → Option (List Char)}
  {text tail : List Char} {r : Record}

theorem recordOf_eq_some (h : recordOf stop between text = some r) :
    ∃ rest c rest' last, text = r.pid ++ stop :: rest ∧ r.pid ≠ [] ∧ r.pid.length < pidLength ∧
      '\x00' ∉ r.pid ∧ stop ∉ r.pid ∧ scanInt rest = some (r.arrivalTime, c :: rest') ∧
      between c = true ∧ scanInt rest' = some (r.burstTime, last) ∧ last.all isSpace = true := by
  unfold recordOf at h
  split at h
  · cases h
  · rename_i pid d rest hspan
    rw [List.span_eq_takeWhile_dropWhile, Prod.mk.injEq] at hspan
    have hd : d = stop := by
      have hhead := List.head?_dropWhile_not (· ≠ stop) text
      rw [hspan.2] at hhead
      simpa using hhead
    have htext : text = pid ++ stop :: rest := by
      rw [← hd, ← hspan.1, ← hspan.2, List.takeWhile_append_dropWhile]
    have hstop : stop ∉ pid := fun hmem => by
      have := List.mem_takeWhile_imp (hspan.1 ▸ hmem)
      simp at this
    split at h
    · cases h
    · rename_i hpid
      push Not at hpid
      split at h
      · rename_i arrivalTime c rest' harrival
        split at h
        · rename_i hc
          split at h
          · rename_i burstTime last hburst
            split at h
            · rename_i hlast
              cases h
              exact ⟨rest, c, rest', last, htext, hpid.1, hpid.2.1, hpid.2.2, hstop, harrival, hc,
                hburst, hlast⟩
            · cases h
          · cases h
        · cases h
      · cases h

theorem scanD_of_scanInt {rest rest' : List Char} {x : Int} (h : scanInt rest = some (x, rest')) :
    scanD rest = some (toInt (toLong x), rest') := by
  rw [scanD, h, Option.map_some]

theorem skipBlanks_scanD (text : List Char) : (skipBlanks text).bind scanD = scanD text := by
  have hidem : (text.dropWhile isSpace).dropWhile isSpace = text.dropWhile isSpace :=
    List.dropWhile_idempotent _ text
  rw [skipBlanks, Option.bind_some, scanD, scanD, scanInt, scanInt, hidem]

theorem scanInt_cons {c : Char} (h : isSpace c = true) (text : List Char) :
    scanInt (c :: text) = scanInt text := by
  rw [scanInt, List.dropWhile_cons_of_pos h, scanInt]

theorem scan_file (h : recordOf ' ' isSpace (text ++ tail) = some r)
    (htail : ∀ c ∈ tail, isSpace c = true) (hlen : r.pid.length < text.length) (v : Record) :
    v.scan ' ' skipBlanks text = r.stored := by
  obtain ⟨rest, c, rest', last, htext, hne, hpid, _, hstop, harrival, hc, hburst, _⟩ :=
    recordOf_eq_some h
  obtain ⟨more, rfl⟩ : ∃ more, text = r.pid ++ ' ' :: more := by
    have hpre : (r.pid ++ [' ']) <+: text := by
      refine List.prefix_of_prefix_length_le ⟨rest, ?_⟩ (List.prefix_append text tail) ?_
      · rw [htext, List.append_assoc, List.singleton_append]
      · rw [List.length_append, List.length_singleton]
        exact hlen
    obtain ⟨more, rfl⟩ := hpre
    exact ⟨more, by rw [List.append_assoc, List.singleton_append]⟩
  rw [List.append_assoc, List.cons_append, List.append_cancel_left_eq, List.cons.injEq] at htext
  rw [← htext.2, scanInt_append htail, Option.map_eq_some_iff] at harrival
  obtain ⟨⟨x, rest₁⟩, harrival, heq⟩ := harrival
  rw [Prod.mk.injEq] at heq
  rw [← scanInt_cons hc, ← heq.2, scanInt_append htail, Option.map_eq_some_iff] at hburst
  obtain ⟨⟨y, rest₂⟩, hburst, heq'⟩ := hburst
  rw [Prod.mk.injEq] at heq'
  have hscan : scanUntil (pidLength - 1) ' ' (r.pid ++ ' ' :: more) = some (r.pid, ' ' :: more) :=
    scanUntil_append hne (Nat.le_pred_of_lt hpid) hstop rfl
  have hfirst : (skipBlanks (' ' :: more)).bind scanD = some (toInt (toLong x), rest₁) := by
    rw [skipBlanks_scanD]
    exact scanD_of_scanInt (by rwa [scanInt_cons (by decide)])
  have hsecond : (skipBlanks rest₁).bind scanD = some (toInt (toLong y), rest₂) := by
    rw [skipBlanks_scanD]
    exact scanD_of_scanInt hburst
  simp only [Record.scan, hscan, hfirst, hsecond]
  rw [Record.stored, ← heq.1, ← heq'.1]

theorem scan_string (h : stringRecord text = some r) (v : Record) :
    v.scan ':' skipColon text = r.stored := by
  obtain ⟨rest, c, rest', last, rfl, hne, hpid, _, hstop, harrival, hc, hburst, _⟩ :=
    recordOf_eq_some h
  obtain rfl := beq_iff_eq.mp hc
  have hscan : scanUntil (pidLength - 1) ':' (r.pid ++ ':' :: rest) = some (r.pid, ':' :: rest) :=
    scanUntil_append hne (Nat.le_pred_of_lt hpid) hstop rfl
  simp only [Record.scan, hscan, skipColon, Option.bind_some, scanD_of_scanInt harrival,
    scanD_of_scanInt hburst]
  rfl

end Records

/-- The records that the lines leave in the variables, one for each line that is not skipped. -/
def storedRecords (v : Record) : List (List Char) → List Record
  | [] => []
  | line :: lines =>
    if skipsLine line then storedRecords v lines
    else v.scan ' ' skipBlanks line :: storedRecords (v.scan ' ' skipBlanks line) lines

section Loops

variable {t : ProcessTable} {v : Record} {line : List Char} {lines : List (List Char)}

theorem ProcessTable.append_of_lt {p : Process} (h : t.processes.length < maxProcesses) :
    ∃ t', t.append p = .ok t' ∧ t'.processes = t.processes ++ [p] := ⟨_, dif_pos h, rfl⟩

theorem storedRecords_skip (h : skipsLine line = true) :
    storedRecords v (line :: lines) = storedRecords v lines := if_pos h

theorem storedRecords_cons (h : skipsLine line = false) :
    storedRecords v (line :: lines) =
      v.scan ' ' skipBlanks line :: storedRecords (v.scan ' ' skipBlanks line) lines :=
  if_neg (by rw [h]; exact Bool.false_ne_true)

theorem foldlM_loadProcessLine (t : ProcessTable) (v : Record) (lines : List (List Char)) :
    (lines.foldlM loadProcessLine (t, v)).map (fun s => s.1.processes) =
      if t.processes.length + (storedRecords v (lines.map stripNewline)).length ≤ maxProcesses then
        .ok (t.processes ++ (storedRecords v (lines.map stripNewline)).map Record.process)
      else .error .tableFull := by
  induction lines generalizing t v with
  | nil =>
    rw [List.map_nil, storedRecords, List.length_nil, Nat.add_zero, if_pos t.length_le,
      List.map_nil, List.append_nil]
    rfl
  | cons line lines ih =>
    rw [List.foldlM_cons, List.map_cons]
    cases hskip : skipsLine (stripNewline line) with
    | true =>
      have hload : loadProcessLine (t, v) line = .ok (t, v) := by simp [loadProcessLine, hskip]
      rw [hload, storedRecords_skip hskip]
      exact ih t v
    | false =>
      rw [storedRecords_cons hskip, List.length_cons, List.map_cons]
      have hload : loadProcessLine (t, v) line =
          (t.append (v.scan ' ' skipBlanks (stripNewline line)).process).map fun t =>
            (t, v.scan ' ' skipBlanks (stripNewline line)) := by simp [loadProcessLine, hskip]
      rw [hload]
      by_cases hlt : t.processes.length < maxProcesses
      · obtain ⟨t', happend, ht'⟩ := ProcessTable.append_of_lt (t := t) hlt
        rw [happend]
        refine (ih t' _).trans ?_
        rw [ht', List.length_append, List.length_singleton, List.append_assoc, Nat.add_assoc,
          Nat.add_comm 1, List.singleton_append]
      · rw [ProcessTable.append, dif_neg hlt, if_neg (by omega)]
        rfl

theorem storedRecords_filter (v : Record) (lines : List (List Char)) :
    storedRecords v (lines.filter (· ≠ [])) = storedRecords v lines := by
  induction lines generalizing v with
  | nil => rfl
  | cons line lines ih =>
    rcases eq_or_ne line [] with rfl | hne
    · rw [List.filter_cons_of_neg (by simp), ih, storedRecords_skip rfl]
    · rw [List.filter_cons_of_pos (by simpa using hne), storedRecords, storedRecords, ih, ih]

theorem length_storedRecords (v : Record) (lines : List (List Char)) :
    (storedRecords v lines).length = lines.countP fun line => !skipsLine line := by
  induction lines generalizing v with
  | nil => rfl
  | cons line lines ih =>
    cases hskip : skipsLine line with
    | true => rw [storedRecords_skip hskip, ih, List.countP_cons_of_neg (by simp [hskip])]
    | false =>
      rw [storedRecords_cons hskip, List.length_cons, ih, List.countP_cons_of_pos (by simp [hskip])]

end Loops

/-- A line that is no record is skipped, and a record has its numbers within `int` and nothing in
what the buffer leaves of the line for the next rounds. -/
def LineExact (line : List Char) : Prop :=
  match fileRecord line with
  | none => ∀ piece ∈ bufferLines lineSize line, skipsLine piece = true
  | some r => r.Fits ∧ ∀ piece ∈ (bufferLines lineSize line).tail, skipsLine piece = true

section Lines

variable {line : List Char} {r : Record}

theorem bufferLines_lineSize (text : List Char) :
    bufferLines lineSize text = (linesOf text).flatMap (bufferLines lineSize) :=
  bufferLines_eq 254 text

theorem recordOf_rest (h : recordOf ' ' isSpace line = some r) :
    ∀ c ∈ line.drop r.pid.length, numberChar c = true := by
  obtain ⟨rest, c, rest', last, rfl, _, _, _, _, harrival, hc, hburst, hlast⟩ := recordOf_eq_some h
  obtain ⟨used, rfl, hused⟩ := scanInt_used harrival
  obtain ⟨used', rfl, hused'⟩ := scanInt_used hburst
  have hspace : ∀ d, isSpace d = true → numberChar d = true := fun d hd => by simp [numberChar, hd]
  rw [List.drop_left]
  simp only [List.mem_cons, List.mem_append]
  rintro d (rfl | hd | rfl | hd | hd)
  · decide
  · exact hused d hd
  · exact hspace d hc
  · exact hused' d hd
  · exact hspace d (List.all_eq_true.mp hlast d hd)

theorem fileRecord_eq_some (h : fileRecord line = some r) :
    ∃ c cs, line = c :: cs ∧ isSpace c = false ∧ c ≠ '#' ∧ recordOf ' ' isSpace line = some r := by
  cases line with
  | nil => cases h
  | cons c cs =>
    rw [fileRecord] at h
    split at h
    · cases h
    · rename_i hc
      rw [not_or, Bool.not_eq_true] at hc
      exact ⟨c, cs, rfl, hc.1, hc.2, h⟩

theorem notNul_of_fileRecord (h : fileRecord line = some r) : '\x00' ∉ line := by
  obtain ⟨_, _, _, _, _, hrecord⟩ := fileRecord_eq_some h
  have hrest := recordOf_rest hrecord
  obtain ⟨rest, _, _, _, rfl, _, _, hnul, _⟩ := recordOf_eq_some hrecord
  rw [List.drop_left] at hrest
  rw [List.mem_append, not_or]
  exact ⟨hnul, fun hmem => absurd (hrest _ hmem) (by decide)⟩

theorem bufferLines_of_fileRecord (hline : '\n' ∉ line) (h : fileRecord line = some r) :
    bufferLines lineSize line = line.take 255 :: bufferLines lineSize (line.drop 255) ∧
      skipsLine (line.take 255) = false := by
  obtain ⟨c, cs, rfl, hc, hcomment, _⟩ := fileRecord_eq_some h
  refine ⟨bufferLines_head hline (notNul_of_fileRecord h) (List.cons_ne_nil c cs), ?_⟩
  rw [List.take_succ_cons, skipsLine, List.dropWhile_cons_of_neg (by simp [hc])]
  simpa using hcomment

theorem isSpace_of_skipsLine {piece : List Char} (h : skipsLine piece = true) (hcomment : '#' ∉ piece) :
    ∀ c ∈ piece, isSpace c = true := by
  unfold skipsLine at h
  split at h
  · rename_i hdrop
    exact List.dropWhile_eq_nil_iff.mp hdrop
  · rename_i c cs hdrop
    obtain rfl := beq_iff_eq.mp h
    exact absurd ((List.dropWhile_sublist _).mem (hdrop ▸ List.mem_cons_self)) hcomment

theorem scan_take (hline : '\n' ∉ line) (h : fileRecord line = some r)
    (htail : ∀ piece ∈ bufferLines lineSize (line.drop 255), skipsLine piece = true) (v : Record) :
    v.scan ' ' skipBlanks (line.take 255) = r.stored := by
  obtain ⟨_, _, _, _, _, hrecord⟩ := fileRecord_eq_some h
  have hrest := recordOf_rest hrecord
  obtain ⟨rest, _, _, _, htext, _, hpid, _⟩ := recordOf_eq_some hrecord
  have hchars : ∀ c ∈ line.drop 255, c ∈ line.drop r.pid.length := fun c hc =>
    (List.drop_sublist_drop_left _ (by unfold pidLength at hpid; omega)).mem hc
  have hspace : ∀ c ∈ line.drop 255, isSpace c = true := by
    intro c hc
    have hflatten : (bufferLines lineSize (line.drop 255)).flatten = line.drop 255 :=
      flatten_bufferLines (fun hmem => hline (List.mem_of_mem_drop hmem))
        (fun hmem => notNul_of_fileRecord h (List.mem_of_mem_drop hmem))
    rw [← hflatten] at hc
    obtain ⟨piece, hpiece, hc⟩ := List.mem_flatten.mp hc
    refine isSpace_of_skipsLine (htail piece hpiece) (fun hmem => ?_) c hc
    have hall : '#' ∈ line.drop 255 := by
      rw [← hflatten]
      exact List.mem_flatten_of_mem hpiece hmem
    exact absurd (hrest _ (hchars _ hall)) (by decide)
  have hwhole : recordOf ' ' isSpace (line.take 255 ++ line.drop 255) = some r := by
    rwa [List.take_append_drop]
  refine scan_file hwhole hspace ?_ v
  have hlen := congrArg List.length htext
  rw [List.length_append, List.length_cons] at hlen
  unfold pidLength at hpid
  rw [List.length_take]
  omega

end Lines

def AppendsRecords (t : ProcessTable) (records : List Record)
    (result : Except WorkloadFault ProcessTable) : Prop :=
  result.map ProcessTable.processes =
    .ok (t.processes ++ (records.map Record.process).take (maxProcesses - t.processes.length))

instance (t : ProcessTable) (records : List Record) (result : Except WorkloadFault ProcessTable) :
    Decidable (AppendsRecords t records result) := inferInstanceAs (Decidable (_ = _))

def ReadOnce (line : List Char) : Prop :=
  (bufferLines lineSize line).countP (fun piece => !skipsLine piece) = (fileRecord line).toList.length

section Files

variable {line : List Char} {lines : List (List Char)} {v : Record}

theorem countP_skipsLine_eq_zero {pieces : List (List Char)} :
    pieces.countP (fun piece => !skipsLine piece) = 0 ↔
      ∀ piece ∈ pieces, skipsLine piece = true := by
  simp [List.countP_eq_zero]

theorem countP_of_fileRecord {r : Record} (hline : '\n' ∉ line) (h : fileRecord line = some r) :
    (bufferLines lineSize line).countP (fun piece => !skipsLine piece) =
      (bufferLines lineSize (line.drop 255)).countP (fun piece => !skipsLine piece) + 1 := by
  obtain ⟨hpieces, hskip⟩ := bufferLines_of_fileRecord hline h
  rw [hpieces, List.countP_cons_of_pos (by simp [hskip])]

theorem length_fileRecord_le (hline : '\n' ∉ line) :
    (fileRecord line).toList.length ≤
      (bufferLines lineSize line).countP fun piece => !skipsLine piece := by
  cases h : fileRecord line with
  | none => exact Nat.zero_le _
  | some r =>
    rw [countP_of_fileRecord hline h]
    exact Nat.le_add_left 1 _

theorem lineExact_iff (hline : '\n' ∉ line) :
    LineExact line ↔ ReadOnce line ∧ ∀ r ∈ fileRecord line, r.Fits := by
  unfold LineExact ReadOnce
  cases h : fileRecord line with
  | none => simp
  | some r =>
    rw [countP_of_fileRecord hline h, (bufferLines_of_fileRecord hline h).1, List.tail_cons]
    simp [and_comm]

theorem storedRecords_skips {pieces : List (List Char)}
    (h : ∀ piece ∈ pieces, skipsLine piece = true) (v : Record) (lines : List (List Char)) :
    storedRecords v (pieces ++ lines) = storedRecords v lines := by
  induction pieces with
  | nil => rfl
  | cons piece pieces ih =>
    obtain ⟨hpiece, hpieces⟩ := List.forall_mem_cons.mp h
    rw [List.cons_append, storedRecords_skip hpiece, ih hpieces]

theorem storedRecords_readOnce (hlines : ∀ line ∈ lines, '\n' ∉ line)
    (h : ∀ line ∈ lines, ReadOnce line) (v : Record) :
    storedRecords v (lines.flatMap (bufferLines lineSize)) =
      (lines.filterMap fileRecord).map Record.stored := by
  induction lines generalizing v with
  | nil => rfl
  | cons line lines ih =>
    obtain ⟨hline, hlines⟩ := List.forall_mem_cons.mp hlines
    obtain ⟨honce, h⟩ := List.forall_mem_cons.mp h
    rw [List.flatMap_cons]
    unfold ReadOnce at honce
    cases hrecord : fileRecord line with
    | none =>
      rw [hrecord] at honce
      rw [List.filterMap_cons_none hrecord,
        storedRecords_skips (countP_skipsLine_eq_zero.mp honce), ih hlines h]
    | some r =>
      obtain ⟨hpieces, hskip⟩ := bufferLines_of_fileRecord hline hrecord
      rw [countP_of_fileRecord hline hrecord, hrecord] at honce
      have htail := countP_skipsLine_eq_zero.mp (Nat.succ.inj honce)
      rw [List.filterMap_cons_some hrecord, hpieces, List.cons_append, storedRecords_cons hskip,
        storedRecords_skips htail, ih hlines h, List.map_cons, scan_take hline hrecord htail]

theorem length_filterMap_cons (line : List Char) (lines : List (List Char)) :
    ((line :: lines).filterMap fileRecord).length =
      (fileRecord line).toList.length + (lines.filterMap fileRecord).length := by
  cases h : fileRecord line with
  | none => rw [List.filterMap_cons_none h, Option.toList_none, List.length_nil, Nat.zero_add]
  | some r =>
    rw [List.filterMap_cons_some h, List.length_cons, Option.toList_some, List.length_singleton,
      Nat.add_comm]

theorem length_filterMap_le (hlines : ∀ line ∈ lines, '\n' ∉ line) :
    (lines.filterMap fileRecord).length ≤
      (lines.flatMap (bufferLines lineSize)).countP fun piece => !skipsLine piece := by
  induction lines with
  | nil => exact Nat.le_refl _
  | cons line lines ih =>
    obtain ⟨hline, hlines⟩ := List.forall_mem_cons.mp hlines
    rw [length_filterMap_cons, List.flatMap_cons, List.countP_append]
    exact Nat.add_le_add (length_fileRecord_le hline) (ih hlines)

theorem readOnce_of_length_le (hlines : ∀ line ∈ lines, '\n' ∉ line)
    (h : (lines.flatMap (bufferLines lineSize)).countP (fun piece => !skipsLine piece) ≤
      (lines.filterMap fileRecord).length) : ∀ line ∈ lines, ReadOnce line := by
  induction lines with
  | nil => simp
  | cons line lines ih =>
    obtain ⟨hline, hlines⟩ := List.forall_mem_cons.mp hlines
    rw [length_filterMap_cons, List.flatMap_cons, List.countP_append] at h
    have hfirst := length_fileRecord_le hline
    have hrest := length_filterMap_le hlines
    refine List.forall_mem_cons.mpr ⟨?_, ih hlines (by omega)⟩
    unfold ReadOnce
    omega

theorem getProcessesFromFile_eq (t : ProcessTable) (stack : Record) (text : List Char) :
    (getProcessesFromFile t stack (some text)).map ProcessTable.processes =
      if t.processes.length + (storedRecords stack (bufferLines lineSize text)).length ≤
          maxProcesses then
        .ok (t.processes ++ (storedRecords stack (bufferLines lineSize text)).map Record.process)
      else .error .tableFull := by
  rw [bufferLines, storedRecords_filter, ← foldlM_loadProcessLine]
  simp only [getProcessesFromFile]
  cases (readLines lineSize text.length text).foldlM loadProcessLine (t, stack) <;> rfl

theorem process_stored_eq_iff (r : Record) : r.stored.process = r.process ↔ r.Fits := by
  simp only [Record.process, Record.stored, constructProcess, Process.mk.injEq, Record.Fits]
  constructor
  · rintro ⟨-, harrival, hburst, -⟩
    exact ⟨harrival ▸ toInt_fits _, hburst ▸ toInt_fits _⟩
  · rintro ⟨harrival, hburst⟩
    simp [toLong_of_fits harrival, toInt_of_fits harrival, toLong_of_fits hburst,
      toInt_of_fits hburst]

theorem map_process_stored_eq_iff (records : List Record) :
    (records.map Record.stored).map Record.process = records.map Record.process ↔
      ∀ r ∈ records, r.Fits := by
  rw [List.map_map, List.map_inj_left]
  exact forall₂_congr fun r _ => process_stored_eq_iff r

theorem getProcessesFromFile_readOnce {text : List Char} (t : ProcessTable) (stack : Record)
    (h : ∀ line ∈ linesOf text, ReadOnce line) :
    (getProcessesFromFile t stack (some text)).map ProcessTable.processes =
      if t.processes.length + ((linesOf text).filterMap fileRecord).length ≤ maxProcesses then
        .ok (t.processes ++
          (((linesOf text).filterMap fileRecord).map Record.stored).map Record.process)
      else .error .tableFull := by
  rw [getProcessesFromFile_eq, bufferLines_lineSize,
    storedRecords_readOnce (fun _ => newline_notMem_of_mem_linesOf) h, List.length_map]

theorem appendsRecords_file_iff (t : ProcessTable) (stack : Record) (text : List Char) :
    AppendsRecords t ((linesOf text).filterMap fileRecord)
        (getProcessesFromFile t stack (some text)) ↔
      (∀ line ∈ linesOf text, LineExact line) ∧
        t.processes.length + ((linesOf text).filterMap fileRecord).length ≤ maxProcesses := by
  have hlines : ∀ line ∈ linesOf text, '\n' ∉ line := fun _ => newline_notMem_of_mem_linesOf
  have hexact : (∀ line ∈ linesOf text, LineExact line) ↔ (∀ line ∈ linesOf text, ReadOnce line) ∧
      ∀ r ∈ (linesOf text).filterMap fileRecord, r.Fits := by
    rw [List.forall_mem_filterMap, ← forall₂_and]
    exact forall₂_congr fun line hline => lineExact_iff (hlines line hline)
  have hle := t.length_le
  rw [hexact]
  constructor
  · intro happend
    -- as many records are appended as pieces are processed, and no fewer pieces than records are
    have hloaded := happend
    rw [AppendsRecords, getProcessesFromFile_eq, bufferLines_lineSize] at hloaded
    split at hloaded
    · rename_i hroom
      have hlen := congrArg (fun r => (r.toOption.getD []).length) hloaded
      simp only [Except.toOption, Option.getD_some, List.length_append, List.length_map,
        List.length_take, length_storedRecords] at hlen
      rw [length_storedRecords] at hroom
      have honce := readOnce_of_length_le hlines (by omega)
      have hcount := length_filterMap_le hlines
      refine ⟨⟨honce, ?_⟩, by omega⟩
      rw [AppendsRecords, getProcessesFromFile_readOnce t stack honce, if_pos (by omega),
        List.take_of_length_le (by rw [List.length_map]; omega), Except.ok.injEq,
        List.append_cancel_left_eq] at happend
      exact (map_process_stored_eq_iff _).mp happend
    · cases hloaded
  · rintro ⟨⟨honce, hfits⟩, hroom⟩
    rw [AppendsRecords, getProcessesFromFile_readOnce t stack honce, if_pos hroom,
      (map_process_stored_eq_iff _).mpr hfits,
      List.take_of_length_le (by rw [List.length_map]; omega)]

end Files

section Strings

variable {tokens : List (List Char)}

theorem loadTokens_eq (t : ProcessTable) (stack : Nat → Record) (tokens : List (List Char)) :
    (loadTokens t stack tokens).map ProcessTable.processes =
      .ok (t.processes ++ (tokens.take (maxProcesses - t.processes.length)).mapIdx
        fun round token => ((stack round).scan ':' skipColon token).process) := by
  induction tokens generalizing t stack with
  | nil => simp [loadTokens, Except.map]
  | cons token tokens ih =>
    rw [loadTokens]
    split
    · rename_i hlt
      obtain ⟨t', happend, ht'⟩ := ProcessTable.append_of_lt (t := t)
        (p := ((stack 0).scan ':' skipColon token).process) hlt
      have hroom : maxProcesses - t.processes.length = maxProcesses - t'.processes.length + 1 := by
        rw [ht', List.length_append, List.length_singleton]
        omega
      rw [happend, hroom, List.take_succ_cons, List.mapIdx_cons, List.append_cons, ← ht']
      exact ih t' _
    · rename_i hge
      rw [Nat.sub_eq_zero_of_le (Nat.le_of_not_lt hge), List.take_zero, List.mapIdx_nil,
        List.append_nil]
      rfl

theorem take_filterMap {α β : Type} {f : α → Option β} {n : Nat} {l : List α}
    (h : ∀ a ∈ l.take n, (f a).isSome) : (l.filterMap f).take n = (l.take n).filterMap f := by
  induction l generalizing n with
  | nil => simp
  | cons a l ih =>
    cases n with
    | zero => simp
    | succ n =>
      rw [List.take_succ_cons] at h ⊢
      obtain ⟨ha, hl⟩ := List.forall_mem_cons.mp h
      obtain ⟨b, hb⟩ := Option.isSome_iff_exists.mp ha
      rw [List.filterMap_cons_some hb, List.filterMap_cons_some hb, List.take_succ_cons, ih hl]

theorem mapIdx_scan (h : ∀ token ∈ tokens, (stringRecord token).isSome) (stack : Nat → Record) :
    (tokens.mapIdx fun round token => ((stack round).scan ':' skipColon token).process) =
      ((tokens.filterMap stringRecord).map Record.stored).map Record.process := by
  induction tokens generalizing stack with
  | nil => rfl
  | cons token tokens ih =>
    obtain ⟨htoken, htokens⟩ := List.forall_mem_cons.mp h
    obtain ⟨r, hr⟩ := Option.isSome_iff_exists.mp htoken
    rw [List.mapIdx_cons, ih htokens, List.filterMap_cons_some hr, scan_string hr, List.map_cons,
      List.map_cons]

def TokenExact (token : List Char) : Prop := ∃ r ∈ stringRecord token, r.Fits

theorem tokensExact_iff : (∀ token ∈ tokens, TokenExact token) ↔
    (∀ token ∈ tokens, (stringRecord token).isSome) ∧
      ∀ r ∈ tokens.filterMap stringRecord, r.Fits := by
  rw [List.forall_mem_filterMap, ← forall₂_and]
  refine forall₂_congr fun token _ => ?_
  unfold TokenExact
  cases stringRecord token <;> simp

theorem appendsRecords_string_iff (t : ProcessTable) (stack : Nat → Record)
    (tokens : List (List Char)) :
    (∀ pre, pre <+: tokens →
        AppendsRecords t (pre.filterMap stringRecord) (loadTokens t stack pre)) ↔
      ∀ token ∈ tokens.take (maxProcesses - t.processes.length), TokenExact token := by
  constructor
  · intro happend
    have hloaded := happend _ (List.take_prefix (maxProcesses - t.processes.length) tokens)
    rw [AppendsRecords, loadTokens_eq, List.take_take, Nat.min_self, Except.ok.injEq,
      List.append_cancel_left_eq] at hloaded
    have hlen := congrArg List.length hloaded
    simp only [List.length_mapIdx, List.length_take, List.length_map] at hlen
    have hall : ∀ token ∈ tokens.take (maxProcesses - t.processes.length),
        (stringRecord token).isSome := by
      rw [← List.filterMap_length_eq_length]
      have hle := List.length_filterMap_le stringRecord
        (tokens.take (maxProcesses - t.processes.length))
      rw [List.length_take] at hle ⊢
      omega
    rw [mapIdx_scan hall, ← List.map_take, take_filterMap (by rwa [List.take_take, Nat.min_self]),
      List.take_take, Nat.min_self] at hloaded
    exact tokensExact_iff.mpr ⟨hall, (map_process_stored_eq_iff _).mp hloaded⟩
  · intro hexact pre hpre
    have hpre : pre.take (maxProcesses - t.processes.length) <+:
        tokens.take (maxProcesses - t.processes.length) := hpre.take _
    obtain ⟨hall, hfits⟩ := tokensExact_iff.mp fun token htoken =>
      hexact token (hpre.subset htoken)
    rw [AppendsRecords, loadTokens_eq, mapIdx_scan hall, (map_process_stored_eq_iff _).mpr hfits,
      ← List.map_take, take_filterMap hall]

end Strings

/-- Which files and strings are loaded exactly, the strings also up to each of their records: the
file loader appends something for every line that it does not skip and never looks for room, and the
string loader appends something for every record while there is room. -/
theorem loadsExactly_iff (t : ProcessTable) (stack : Record) (stack' : Nat → Record)
    (text processStr : List Char) :
    (AppendsRecords t ((linesOf text).filterMap fileRecord)
        (getProcessesFromFile t stack (some text)) ↔
      (∀ line ∈ linesOf text, LineExact line) ∧
        t.processes.length + ((linesOf text).filterMap fileRecord).length ≤ maxProcesses) ∧
    (AppendsRecords t ((recordTokens processStr).filterMap stringRecord)
          (getProcessesFromString t stack' processStr) ∧
        (∀ pre, pre <+: recordTokens processStr →
          AppendsRecords t (pre.filterMap stringRecord) (loadTokens t stack' pre)) ↔
      ∀ token ∈ (recordTokens processStr).take (maxProcesses - t.processes.length),
        TokenExact token) := by
  have hstring := appendsRecords_string_iff t stack' (recordTokens processStr)
  exact ⟨appendsRecords_file_iff t stack text, fun h => hstring.mp h.2, fun h =>
    ⟨hstring.mpr h _ List.prefix_rfl, hstring.mpr h⟩⟩

/-- The second line has no burst, and its process gets the burst of the first. -/
theorem loads_leftover :
    (getProcessesFromFile .empty ⟨[], 0, 0⟩ (some "A 0 5\nB 3\n".toList)).map
        ProcessTable.processes =
      .ok [constructProcess ['A'] 0 5, constructProcess ['B'] 3 5] ∧
    ¬ AppendsRecords .empty ((linesOf "A 0 5\nB 3\n".toList).filterMap fileRecord)
      (getProcessesFromFile .empty ⟨[], 0, 0⟩ (some "A 0 5\nB 3\n".toList)) := by decide +kernel

end OsLab.Sched
