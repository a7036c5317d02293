import Mathlib.Data.List.TakeDrop
import Mathlib.Data.List.TakeWhile

/-! The pieces of `stdio.h` and `ctype.h` that the loaders read text with, over lists of
characters. Integers are exact. -/

namespace OsLab.CText

def isSpace (c : Char) : Bool :=
  c == ' ' || c == '\t' || c == '\n' || c == '\x0b' || c == '\x0c' || c == '\r'

/-- The characters `fgets` stores when the buffer has room for `room` of them: up to and
including the next newline. -/
def takeLine : Nat → List Char → List Char × List Char
  | 0, input => ([], input)
  | _ + 1, [] => ([], [])
  | room + 1, c :: cs =>
    if c = '\n' then ([c], cs) else (c :: (takeLine room cs).1, (takeLine room cs).2)

/-- `fgets(buf, size, stream)`; `none` is the NULL returned at end of file. -/
def fgets (size : Nat) : List Char → Option (List Char × List Char)
  | [] => none
  | c :: cs => some (takeLine (size - 1) (c :: cs))

/-- The lines that `while (fgets(buf, size, stream))` sees, each cut at its first NUL. -/
def readLines (size : Nat) : Nat → List Char → List (List Char)
  | 0, _ => []
  | fuel + 1, input =>
    match fgets size input with
    | none => []
    | some (line, rest) => (line.takeWhile (· ≠ '\x00')) :: readLines size fuel rest

def digitsValue (ds : List Char) : Nat := ds.foldl (fun v d => 10 * v + (d.toNat - '0'.toNat)) 0

/-- The `%d` conversion: blanks, an optional sign, at least one digit. -/
def scanInt (input : List Char) : Option (Int × List Char) :=
  let text := input.dropWhile isSpace
  let (sign, body) : Int × List Char :=
    match text with
    | '-' :: cs => (-1, cs)
    | '+' :: cs => (1, cs)
    | cs => (1, cs)
  match body.span Char.isDigit with
  | ([], _) => none
  | (d :: ds, rest) => some (sign * digitsValue (d :: ds), rest)

theorem fgets_of_ne_nil (room : Nat) {input : List Char} (h : input ≠ []) :
    fgets (room + 1) input = some (takeLine room input) := by
  obtain ⟨c, cs, rfl⟩ := List.exists_cons_of_ne_nil h
  rfl

theorem digitsValue_toDigits (k : Nat) : digitsValue (Nat.toDigits 10 k) = k := by
  rw [digitsValue, ← Nat.ofDigitChars_eq_foldl, Nat.ofDigitChars_ten_toDigits]

theorem isSpace_of_isDigit {c : Char} (h : c.isDigit = true) : isSpace c = false := by
  simp only [Char.isDigit, Bool.and_eq_true, decide_eq_true_eq] at h
  have hne : ∀ d : Char, d.val < 48 → c ≠ d := by
    rintro d hd rfl
    exact absurd h.1 (by simpa using hd)
  simp [isSpace, hne ' ' (by decide), hne '\t' (by decide), hne '\n' (by decide),
    hne '\x0b' (by decide), hne '\x0c' (by decide), hne '\r' (by decide)]

theorem scanInt_digits {ds : List Char} (hne : ds ≠ []) (hdigits : ∀ c ∈ ds, c.isDigit = true) :
    scanInt ds = some ((digitsValue ds : Int), []) := by
  obtain ⟨d, ds, rfl⟩ := List.exists_cons_of_ne_nil hne
  have hd : d.isDigit = true := hdigits d List.mem_cons_self
  have htake : (d :: ds).takeWhile Char.isDigit = d :: ds := List.takeWhile_eq_self_iff.mpr hdigits
  have hdrop : (d :: ds).dropWhile Char.isDigit = [] := List.dropWhile_eq_nil_iff.mpr hdigits
  have hminus : d ≠ '-' := by rintro rfl; exact absurd hd (by decide)
  have hplus : d ≠ '+' := by rintro rfl; exact absurd hd (by decide)
  unfold scanInt
  rw [List.dropWhile_cons_of_neg (by simp [isSpace_of_isDigit hd])]
  simp [hminus, hplus, htake, hdrop]

/-- The `%s` conversion: blanks, then at least one character that is none. -/
def scanWord (input : List Char) : Option (List Char × List Char) :=
  match (input.dropWhile isSpace).span fun c => !isSpace c with
  | ([], _) => none
  | (c :: cs, rest) => some (c :: cs, rest)

def splitLines : List Char → List (List Char) × List Char
  | [] => ([], [])
  | c :: cs =>
    if c = '\n' then ([] :: (splitLines cs).1, (splitLines cs).2)
    else
      match splitLines cs with
      | ([], last) => ([], c :: last)
      | (line :: lines, last) => ((c :: line) :: lines, last)

def linesOf (input : List Char) : List (List Char) :=
  (splitLines input).1 ++ if (splitLines input).2 = [] then [] else [(splitLines input).2]

theorem splitLines_last {last : List Char} (h : '\n' ∉ last) : splitLines last = ([], last) := by
  induction last with
  | nil => rfl
  | cons c cs ih =>
    obtain ⟨hc, hcs⟩ := List.ne_and_not_mem_of_not_mem_cons h
    rw [splitLines, if_neg (Ne.symm hc), ih hcs]

theorem splitLines_line {line rest : List Char} (h : '\n' ∉ line) :
    splitLines (line ++ '\n' :: rest) = (line :: (splitLines rest).1, (splitLines rest).2) := by
  induction line with
  | nil => rw [List.nil_append, splitLines, if_pos rfl]
  | cons c cs ih =>
    obtain ⟨hc, hcs⟩ := List.ne_and_not_mem_of_not_mem_cons h
    rw [List.cons_append, splitLines, if_neg (Ne.symm hc), ih hcs]

theorem linesOf_line {line rest : List Char} (h : '\n' ∉ line) :
    linesOf (line ++ '\n' :: rest) = line :: linesOf rest := by
  rw [linesOf, splitLines_line h, List.cons_append, linesOf]

theorem lines_induction {motive : List Char → Prop} (nil : motive [])
    (last : ∀ last, '\n' ∉ last → last ≠ [] → motive last)
    (line : ∀ line rest, '\n' ∉ line → motive rest → motive (line ++ '\n' :: rest))
    (input : List Char) : motive input := by
  -- what is in front of the first newline may grow by a character
  suffices h : motive input ∧ ∀ line, '\n' ∉ line → motive (line ++ input) from h.1
  induction input with
  | nil =>
    refine ⟨nil, fun pre hpre => ?_⟩
    rw [List.append_nil]
    rcases eq_or_ne pre [] with rfl | hne
    · exact nil
    · exact last pre hpre hne
  | cons c cs ih =>
    have hall : ∀ pre, '\n' ∉ pre → motive (pre ++ c :: cs) := by
      intro pre hpre
      rcases eq_or_ne c '\n' with rfl | hc
      · exact line pre cs hpre ih.1
      · rw [List.append_cons]
        refine ih.2 _ fun hmem => ?_
        rcases List.mem_append.mp hmem with hmem | hmem
        · exact hpre hmem
        · exact hc (List.mem_singleton.mp hmem).symm
    exact ⟨hall [] List.not_mem_nil, hall⟩

theorem newline_notMem_of_mem_linesOf {input line : List Char} (h : line ∈ linesOf input) :
    '\n' ∉ line := by
  induction input using lines_induction with
  | nil => cases h
  | last last hlast hne =>
    simp only [linesOf, splitLines_last hlast, hne, if_false, List.nil_append,
      List.mem_singleton] at h
    exact h ▸ hlast
  | line first rest hfirst ih =>
    rw [linesOf_line hfirst] at h
    rcases List.mem_cons.mp h with rfl | h
    · exact hfirst
    · exact ih h

theorem takeLine_line {line rest : List Char} {room : Nat} (h : '\n' ∉ line)
    (hroom : line.length < room) :
    takeLine room (line ++ '\n' :: rest) = (line ++ ['\n'], rest) := by
  induction line generalizing room with
  | nil =>
    obtain ⟨room, rfl⟩ := Nat.exists_eq_succ_of_ne_zero (Nat.ne_zero_of_lt hroom)
    rw [List.nil_append, takeLine, if_pos rfl, List.nil_append]
  | cons c cs ih =>
    obtain ⟨room, rfl⟩ := Nat.exists_eq_succ_of_ne_zero (Nat.ne_zero_of_lt hroom)
    obtain ⟨hc, hcs⟩ := List.ne_and_not_mem_of_not_mem_cons h
    rw [List.cons_append, takeLine, if_neg (Ne.symm hc), ih hcs (Nat.lt_of_succ_lt_succ hroom),
      List.cons_append]

theorem takeLine_append {text rest : List Char} {room : Nat} (h : '\n' ∉ text)
    (hroom : text.length ≤ room) (hend : text.length = room ∨ rest = []) :
    takeLine room (text ++ rest) = (text, rest) := by
  induction text generalizing room with
  | nil =>
    rcases hend with rfl | rfl
    · rfl
    · cases room <;> rfl
  | cons c cs ih =>
    obtain ⟨room, rfl⟩ := Nat.exists_eq_succ_of_ne_zero (Nat.ne_zero_of_lt hroom)
    obtain ⟨hc, hcs⟩ := List.ne_and_not_mem_of_not_mem_cons h
    rw [List.cons_append, takeLine, if_neg (Ne.symm hc),
      ih hcs (Nat.le_of_succ_le_succ hroom) (hend.imp_left Nat.succ.inj)]

end OsLab.CText
