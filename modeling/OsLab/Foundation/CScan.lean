import OsLab.Foundation.CInt
import OsLab.Foundation.CText

/-! `sscanf` into variables of bounded size, and how the lines of a text come through a buffer of
bounded size. -/

namespace OsLab.CText

/-- The `%d` conversion into an `int`. -/
def scanD (input : List Char) : Option (Int × List Char) :=
  (scanInt input).map fun r => (toInt (toLong r.1), r.2)

/-- The `%<width>[^<stop>]` conversion. -/
def scanUntil (width : Nat) (stop : Char) (input : List Char) : Option (List Char × List Char) :=
  match (input.take width).takeWhile (· ≠ stop) with
  | [] => none
  | c :: cs => some (c :: cs, input.drop (cs.length + 1))

theorem scanUntil_append {width : Nat} {stop : Char} {text rest : List Char} (hne : text ≠ [])
    (hlen : text.length ≤ width) (hstop : stop ∉ text) (hrest : rest.head? = some stop) :
    scanUntil width stop (text ++ rest) = some (text, rest) := by
  obtain ⟨c, cs, rfl⟩ := List.exists_cons_of_ne_nil hne
  obtain ⟨rest, rfl⟩ := List.head?_eq_some_iff.mp hrest
  have htext : ∀ d ∈ c :: cs, decide (d ≠ stop) = true := fun d hd =>
    decide_eq_true (ne_of_mem_of_not_mem hd hstop)
  have hspan : ((c :: cs ++ stop :: rest).take width).takeWhile (· ≠ stop) = c :: cs := by
    rw [List.take_append, List.take_of_length_le hlen, List.takeWhile_append_of_pos htext]
    cases width - (c :: cs).length with
    | zero => simp
    | succ n => simp
  unfold scanUntil
  rw [hspan]
  simp

theorem takeWhile_append_of_neg {p : Char → Bool} {tail : List Char} (h : ∀ c ∈ tail, p c = false)
    (text : List Char) : (text ++ tail).takeWhile p = text.takeWhile p := by
  induction text with
  | nil =>
    cases tail with
    | nil => rfl
    | cons c cs => exact List.takeWhile_cons_of_neg (by simp [h c List.mem_cons_self])
  | cons c cs ih =>
    rw [List.cons_append, List.takeWhile_cons, List.takeWhile_cons, ih]

theorem dropWhile_append_of_neg {p : Char → Bool} {tail : List Char} (h : ∀ c ∈ tail, p c = false)
    (text : List Char) : (text ++ tail).dropWhile p = text.dropWhile p ++ tail := by
  induction text with
  | nil =>
    cases tail with
    | nil => rfl
    | cons c cs => exact List.dropWhile_cons_of_neg (by simp [h c List.mem_cons_self])
  | cons c cs ih =>
    rw [List.cons_append, List.dropWhile_cons, List.dropWhile_cons, ih]
    split <;> rfl

theorem isDigit_of_isSpace {c : Char} (h : isSpace c = true) : c.isDigit = false := by
  by_contra hd
  rw [isSpace_of_isDigit (Bool.eq_true_of_not_eq_false hd)] at h
  exact Bool.false_ne_true h

theorem scanInt_append {text tail : List Char} (h : ∀ c ∈ tail, isSpace c = true) :
    scanInt (text ++ tail) = (scanInt text).map fun r => (r.1, r.2 ++ tail) := by
  have hdigit : ∀ c ∈ tail, c.isDigit = false := fun c hc => isDigit_of_isSpace (h c hc)
  unfold scanInt
  cases htext : text.dropWhile isSpace with
  | nil =>
    have hall : (text ++ tail).dropWhile isSpace = [] := by
      refine List.dropWhile_eq_nil_iff.mpr fun c hc => ?_
      rcases List.mem_append.mp hc with hc | hc
      · exact List.dropWhile_eq_nil_iff.mp htext c hc
      · exact h c hc
    rw [hall]
    rfl
  | cons c cs =>
    have hne : (text ++ tail).dropWhile isSpace = c :: (cs ++ tail) := by
      rw [List.dropWhile_append, htext]
      rfl
    rw [hne]
    have hspan : ∀ body : List Char, (body ++ tail).span Char.isDigit =
        (body.takeWhile Char.isDigit, body.dropWhile Char.isDigit ++ tail) := fun body => by
      rw [List.span_eq_takeWhile_dropWhile, takeWhile_append_of_neg hdigit,
        dropWhile_append_of_neg hdigit]
    by_cases hminus : c = '-'
    · subst hminus
      simp only [hspan, List.span_eq_takeWhile_dropWhile]
      cases cs.takeWhile Char.isDigit <;> rfl
    · by_cases hplus : c = '+'
      · subst hplus
        simp only [hspan, List.span_eq_takeWhile_dropWhile]
        cases cs.takeWhile Char.isDigit <;> rfl
      · have htake := takeWhile_append_of_neg hdigit (c :: cs)
        have hdrop := dropWhile_append_of_neg hdigit (c :: cs)
        rw [List.cons_append] at htake hdrop
        simp [hminus, hplus, htake, hdrop]
        cases (c :: cs).takeWhile Char.isDigit <;> rfl

/-- The characters that `%d` may read. -/
def numberChar (c : Char) : Bool := isSpace c || c.isDigit || c == '-' || c == '+'

theorem scanInt_used {text rest : List Char} {x : Int} (h : scanInt text = some (x, rest)) :
    ∃ used, text = used ++ rest ∧ ∀ c ∈ used, numberChar c = true := by
  have hblanks : ∀ c ∈ text.takeWhile isSpace, numberChar c = true := fun c hc => by
    simp [numberChar, List.mem_takeWhile_imp hc]
  have hdigits : ∀ body : List Char, ∀ c ∈ body.takeWhile Char.isDigit, numberChar c = true :=
    fun body c hc => by simp [numberChar, List.mem_takeWhile_imp hc]
  -- the digits end the number, whatever sign is in front of them
  have hbody : ∀ sign body, (∀ c ∈ sign, numberChar c = true) → text.dropWhile isSpace = sign ++ body →
      body.dropWhile Char.isDigit = rest →
      ∃ used, text = used ++ rest ∧ ∀ c ∈ used, numberChar c = true := by
    intro sign body hsign htext hrest
    refine ⟨text.takeWhile isSpace ++ (sign ++ body.takeWhile Char.isDigit), ?_, ?_⟩
    · rw [← hrest, List.append_assoc, List.append_assoc, List.takeWhile_append_dropWhile, ← htext,
        List.takeWhile_append_dropWhile]
    · simp only [List.mem_append]
      rintro c (hc | hc | hc)
      · exact hblanks c hc
      · exact hsign c hc
      · exact hdigits body c hc
  unfold scanInt at h
  simp only [List.span_eq_takeWhile_dropWhile] at h
  split at h <;> rename_i heq
  · cases h
  · rw [Option.some.injEq, Prod.mk.injEq] at h
    rw [Prod.mk.injEq] at heq
    split at heq <;> rename_i htext
    · exact hbody ['-'] _ (List.forall_mem_singleton.mpr rfl) htext (heq.2.trans h.2)
    · exact hbody ['+'] _ (List.forall_mem_singleton.mpr rfl) htext (heq.2.trans h.2)
    · exact hbody [] _ (by simp) rfl (heq.2.trans h.2)

def stripNewline (line : List Char) : List Char := line.takeWhile (· ≠ '\n')

/-- The lines that `fgets` sees without their newlines, but for the empty ones. -/
def bufferLines (size : Nat) (text : List Char) : List (List Char) :=
  ((readLines size text.length text).map stripNewline).filter (· ≠ [])

section Lines

variable {size fuel : Nat} {line rest input : List Char}

theorem takeLine_length_le (room : Nat) (input : List Char) :
    (takeLine room input).2.length ≤ input.length := by
  induction room, input using takeLine.induct with
  | case1 input => exact Nat.le_refl _
  | case2 room => exact Nat.le_refl _
  | case3 room cs => simp [takeLine]
  | case4 room c cs hc ih =>
    rw [takeLine, if_neg hc, List.length_cons]
    exact Nat.le_succ_of_le ih

theorem takeLine_line_length_le (room : Nat) (input : List Char) :
    (takeLine room input).1.length ≤ room := by
  induction room, input using takeLine.induct with
  | case1 input => rw [takeLine, List.length_nil]
  | case2 room => exact Nat.zero_le _
  | case3 room cs =>
    rw [takeLine, if_pos rfl]
    exact Nat.succ_le_succ (Nat.zero_le room)
  | case4 room c cs hc ih =>
    rw [takeLine, if_neg hc]
    exact Nat.succ_le_succ ih

theorem takeLine_succ_length_lt (room : Nat) (c : Char) (cs : List Char) :
    (takeLine (room + 1) (c :: cs)).2.length < (c :: cs).length := by
  rw [takeLine, List.length_cons, Nat.lt_succ_iff]
  split
  · exact Nat.le_refl _
  · exact takeLine_length_le room cs

theorem readLines_fuel {fuel' : Nat} (h : input.length ≤ fuel) (h' : input.length ≤ fuel') :
    readLines (size + 2) fuel input = readLines (size + 2) fuel' input := by
  induction fuel generalizing input fuel' with
  | zero =>
    obtain rfl := List.length_eq_zero_iff.mp (Nat.le_zero.mp h)
    cases fuel' <;> rfl
  | succ fuel ih =>
    cases input with
    | nil => cases fuel' <;> rfl
    | cons c cs =>
      have hlt := takeLine_succ_length_lt size c cs
      obtain ⟨fuel', rfl⟩ := Nat.exists_eq_succ_of_ne_zero (Nat.ne_zero_of_lt h')
      simp only [readLines, fgets, Nat.add_one_sub_one]
      exact congrArg (_ :: ·) (ih (by omega) (by omega))

theorem readLines_of_takeLine (hne : input ≠ []) (h : takeLine (size + 1) input = (line, rest)) :
    readLines (size + 2) input.length input =
      line.takeWhile (· ≠ '\x00') :: readLines (size + 2) rest.length rest := by
  obtain ⟨c, cs, rfl⟩ := List.exists_cons_of_ne_nil hne
  have hlt := takeLine_succ_length_lt size c cs
  rw [h, List.length_cons, Nat.lt_succ_iff] at hlt
  rw [List.length_cons, readLines, fgets, Nat.add_one_sub_one, h]
  exact congrArg (_ :: ·) (readLines_fuel hlt (Nat.le_refl _))

theorem takeLine_whole (h : '\n' ∉ line) (hlen : line.length ≤ size) :
    takeLine size line = (line, []) := by
  simpa using takeLine_append h hlen (.inr rfl : _ ∨ ([] : List Char) = [])

theorem takeLine_full (h : '\n' ∉ line) (hlen : size ≤ line.length) (rest : List Char) :
    takeLine size (line ++ rest) = (line.take size, line.drop size ++ rest) := by
  have htake : takeLine size (line.take size ++ (line.drop size ++ rest)) =
      (line.take size, line.drop size ++ rest) :=
    takeLine_append (fun hmem => h (List.mem_of_mem_take hmem)) (List.length_take_le ..)
      (.inl (List.length_take_of_le hlen))
  rwa [← List.append_assoc, List.take_append_drop] at htake

theorem stripNewline_of_notMem (h : '\n' ∉ line) : stripNewline line = line :=
  List.takeWhile_eq_self_iff.mpr fun _ hc => decide_eq_true (ne_of_mem_of_not_mem hc h)

theorem stripNewline_takeWhile (p : Char → Bool) (h : '\n' ∉ line) :
    stripNewline (line.takeWhile p) = line.takeWhile p :=
  stripNewline_of_notMem fun hmem => h ((List.takeWhile_sublist p).mem hmem)

theorem bufferLines_cons (hne : input ≠ []) (h : takeLine (size + 1) input = (line, rest)) :
    bufferLines (size + 2) input =
      [stripNewline (line.takeWhile (· ≠ '\x00'))].filter (· ≠ []) ++ bufferLines (size + 2) rest := by
  rw [bufferLines, readLines_of_takeLine hne h, List.map_cons, ← List.singleton_append,
    List.filter_append, bufferLines]

theorem bufferLines_nil : bufferLines size [] = [] := rfl

theorem bufferLines_line (h : '\n' ∉ line) :
    bufferLines (size + 2) (line ++ '\n' :: rest) =
      bufferLines (size + 2) line ++ bufferLines (size + 2) rest := by
  induction hlen : line.length using Nat.strong_induction_on generalizing line with
  | _ n ih =>
    rcases Nat.lt_or_ge line.length (size + 1) with hlt | hge
    · have hstrip : stripNewline ((line ++ ['\n']).takeWhile (· ≠ '\x00')) =
          line.takeWhile (· ≠ '\x00') := by
        rw [stripNewline, List.takeWhile_takeWhile]
        simp only [and_comm]
        rw [← List.takeWhile_takeWhile, List.takeWhile_append_of_pos fun c hc =>
          decide_eq_true (ne_of_mem_of_not_mem hc h)]
        simp
      rw [bufferLines_cons (by simp) (takeLine_line h hlt), hstrip]
      rcases eq_or_ne line [] with rfl | hne
      · rfl
      · rw [bufferLines_cons hne (takeLine_whole h hlt.le), stripNewline_takeWhile _ h,
          bufferLines_nil, List.append_nil]
    · have hne : line ≠ [] := List.ne_nil_of_length_pos (by omega)
      have hdrop : '\n' ∉ line.drop (size + 1) := fun hmem => h (List.mem_of_mem_drop hmem)
      have halone := takeLine_full h hge []
      rw [List.append_nil, List.append_nil] at halone
      rw [bufferLines_cons (by simp) (takeLine_full h hge _), bufferLines_cons hne halone,
        ih _ (by rw [List.length_drop]; omega) hdrop rfl, List.append_assoc]

theorem bufferLines_eq (size : Nat) (text : List Char) :
    bufferLines (size + 2) text = (linesOf text).flatMap (bufferLines (size + 2)) := by
  induction text using lines_induction with
  | nil => rfl
  | last last hlast hne => simp [linesOf, splitLines_last hlast, hne]
  | line line rest hline ih => rw [bufferLines_line hline, linesOf_line hline, List.flatMap_cons, ih]

theorem bufferLines_head (h : '\n' ∉ line) (hnul : '\x00' ∉ line) (hne : line ≠ []) :
    bufferLines (size + 2) line =
      line.take (size + 1) :: bufferLines (size + 2) (line.drop (size + 1)) := by
  have htake : '\n' ∉ line.take (size + 1) := fun hmem => h (List.mem_of_mem_take hmem)
  have htext : (line.take (size + 1)).takeWhile (· ≠ '\x00') = line.take (size + 1) :=
    List.takeWhile_eq_self_iff.mpr fun c hc =>
      decide_eq_true (ne_of_mem_of_not_mem (List.mem_of_mem_take hc) hnul)
  have hread : takeLine (size + 1) line = (line.take (size + 1), line.drop (size + 1)) := by
    rcases Nat.le_total line.length (size + 1) with hle | hge
    · rw [takeLine_whole h hle, List.take_of_length_le hle, List.drop_of_length_le hle]
    · simpa using takeLine_full h hge []
  rw [bufferLines_cons hne hread, htext, stripNewline_of_notMem htake]
  simp [hne]

theorem flatten_bufferLines (h : '\n' ∉ line) (hnul : '\x00' ∉ line) :
    (bufferLines (size + 2) line).flatten = line := by
  induction hlen : line.length using Nat.strong_induction_on generalizing line with
  | _ n ih =>
    rcases eq_or_ne line [] with rfl | hne
    · rfl
    · have hpos : 0 < line.length := List.length_pos_iff.mpr hne
      rw [bufferLines_head h hnul hne, List.flatten_cons,
        ih _ (by rw [List.length_drop]; omega) (fun hmem => h (List.mem_of_mem_drop hmem))
          (fun hmem => hnul (List.mem_of_mem_drop hmem)) rfl, List.take_append_drop]

end Lines

end OsLab.CText
