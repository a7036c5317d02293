import OsLab.Foundation.CScan
import OsLab.Shell.Grammar

/-! The argument vector of a command as an array, and the text of a background job. -/

namespace OsLab.Shell

/-- `args` of a command, with what lies behind it in the record, and the indices that have been read
or written. -/
structure ArgArray where
  entry : Nat → Option Token
  used : List Nat

namespace ArgArray

def zero : ArgArray := ⟨fun _ => none, []⟩

def read (a : ArgArray) (i : Nat) : ArgArray := { a with used := a.used ++ [i] }

def write (a : ArgArray) (i : Nat) (word : Option Token) : ArgArray :=
  ⟨Function.update a.entry i word, a.used ++ [i]⟩

def Inside (a : ArgArray) : Prop := ∀ i ∈ a.used, i < maxTokenArraySize

def Terminated (a : ArgArray) : Prop :=
  ∃ k, k < maxTokenArraySize ∧ (∀ i < k, a.entry i ≠ none) ∧ a.entry k = none

end ArgArray

/-- The loop of `get_command` up to the first special symbol, and the NULL after it. -/
def storeWords : List Token → Nat → ArgArray → ArgArray
  | [], j, a => a.write j none
  | token :: rest, j, a =>
    if specialSymbols.contains token then a.write j none
    else storeWords rest (j + 1) (a.write j (some token))

/-- The array that `get_command` fills. With too many tokens it returns before it does. -/
def storedArgs (line : List Char) : ArgArray :=
  if maxTokenArraySize < (tokens line).length then .zero
  else (storeWords (tokens line) 0 .zero).read 0

/-- The loop of `free_command`. -/
def freeArgs : (fuel : Nat) → (i : Nat) → ArgArray → Option ArgArray
  | 0, _, _ => none
  | fuel + 1, i, a =>
    match a.entry i with
    | none => some (a.read i)
    | some _ => freeArgs fuel (i + 1) ((a.read i).write i none)

/-- The loop of `interpreter` that copies the arguments, and the NULL after it. -/
def copyArgs : (fuel : Nat) → (i : Nat) → ArgArray → ArgArray → Option (ArgArray × ArgArray)
  | 0, _, _, _ => none
  | fuel + 1, i, a, copy =>
    match a.entry i with
    | none => some (a.read i, copy.write i none)
    | some word => copyArgs fuel (i + 1) (a.read i) (copy.write i (some word))

structure ArgsInside (line : List Char) : Prop where
  stored : (storedArgs line).Inside
  terminated : (storedArgs line).Terminated
  freed : ∃ fuel a, freeArgs fuel 0 (storedArgs line) = some a ∧ a.Inside
  copied : (parseLine line).background = true →
    ∃ fuel r, copyArgs fuel 0 (storedArgs line) .zero = some r ∧ r.1.Inside ∧ r.2.Inside

namespace ArgArray

/-- From `i` on the array holds the words and nothing else. -/
def HoldsFrom (a : ArgArray) (i : Nat) (words : List Token) : Prop :=
  ∀ j, a.entry (i + j) = words[j]?

variable {a : ArgArray} {i : Nat} {word : Token} {words : List Token}

theorem HoldsFrom.entry_nil (h : a.HoldsFrom i []) : a.entry i = none := h 0

theorem HoldsFrom.entry_cons (h : a.HoldsFrom i (word :: words)) : a.entry i = some word := h 0

theorem HoldsFrom.tail (h : a.HoldsFrom i (word :: words)) : a.HoldsFrom (i + 1) words := fun j => by
  rw [Nat.add_assoc, Nat.add_comm 1]
  exact h (j + 1)

theorem HoldsFrom.read (h : a.HoldsFrom i words) (j : Nat) : (a.read j).HoldsFrom i words := h

theorem HoldsFrom.write_below (h : a.HoldsFrom (i + 1) words) (x : Option Token) :
    (a.write i x).HoldsFrom (i + 1) words := fun j => by
  exact (Function.update_of_ne (by omega) ..).trans (h j)

end ArgArray

section Loops

open ArgArray

variable {a : ArgArray} {i : Nat} {words : List Token}

theorem freeArgs_used (h : a.HoldsFrom i words) : ∃ a', freeArgs (words.length + 1) i a = some a' ∧
    ∀ x ∈ a'.used, x ∈ a.used ∨ x ≤ i + words.length := by
  induction words generalizing a i with
  | nil =>
    refine ⟨a.read i, by simp only [freeArgs, h.entry_nil], fun x hx => ?_⟩
    simp only [ArgArray.read, List.mem_append, List.mem_singleton] at hx
    exact hx.imp_right fun hx => hx.le
  | cons word words ih =>
    obtain ⟨a', hfree, hused⟩ := ih ((h.tail.read i).write_below none)
    refine ⟨a', by simpa only [freeArgs, List.length_cons, h.entry_cons] using hfree,
      fun x hx => ?_⟩
    have hx := hused x hx
    simp only [ArgArray.read, ArgArray.write, List.mem_append, List.mem_singleton] at hx
    rw [List.length_cons]
    rcases hx with ((hx | rfl) | rfl) | hx
    · exact .inl hx
    · exact .inr (Nat.le_add_right x _)
    · exact .inr (Nat.le_add_right x _)
    · exact .inr (by omega)

theorem copyArgs_used (copy : ArgArray) (h : a.HoldsFrom i words) :
    ∃ r, copyArgs (words.length + 1) i a copy = some r ∧
    (∀ x ∈ r.1.used, x ∈ a.used ∨ x ≤ i + words.length) ∧
    ∀ x ∈ r.2.used, x ∈ copy.used ∨ x ≤ i + words.length := by
  induction words generalizing a copy i with
  | nil =>
    refine ⟨(a.read i, copy.write i none), by simp only [copyArgs, h.entry_nil], fun x hx => ?_,
      fun x hx => ?_⟩
    · simp only [ArgArray.read, List.mem_append, List.mem_singleton] at hx
      exact hx.imp_right fun hx => hx.le
    · simp only [ArgArray.write, List.mem_append, List.mem_singleton] at hx
      exact hx.imp_right fun hx => hx.le
  | cons word words ih =>
    obtain ⟨r, hcopy, hused, hused'⟩ := ih (copy.write i (some word)) (h.tail.read i)
    refine ⟨r, by simpa only [copyArgs, List.length_cons, h.entry_cons] using hcopy,
      fun x hx => ?_, fun x hx => ?_⟩
    · have hx := hused x hx
      simp only [ArgArray.read, List.mem_append, List.mem_singleton] at hx
      rw [List.length_cons]
      rcases hx with (hx | rfl) | hx
      · exact .inl hx
      · exact .inr (Nat.le_add_right x _)
      · exact .inr (by omega)
    · have hx := hused' x hx
      simp only [ArgArray.write, List.mem_append, List.mem_singleton] at hx
      rw [List.length_cons]
      rcases hx with (hx | rfl) | hx
      · exact .inl hx
      · exact .inr (Nat.le_add_right x _)
      · exact .inr (by omega)

/-- `get_command` stores the words in front of the first special symbol, with a NULL after them. -/
structure Stores (a : ArgArray) (i : Nat) (words : List Token) (b : ArgArray) : Prop where
  below : ∀ x < i, b.entry x = a.entry x
  holds : b.HoldsFrom i words
  inside : ∀ x ∈ b.used, x ∈ a.used ∨ x ≤ i + words.length
  last : i + words.length ∈ b.used

theorem stores_nil (h : a.HoldsFrom i []) : Stores a i [] (a.write i none) where
  below x hx := Function.update_of_ne hx.ne ..
  holds m := by
    rcases eq_or_ne m 0 with rfl | hm
    · exact Function.update_self ..
    · exact (Function.update_of_ne (by omega) ..).trans (h m)
  inside x hx := by
    simp only [ArgArray.write, List.mem_append, List.mem_singleton] at hx
    exact hx.imp_right fun hx => hx.le
  last := by simp [ArgArray.write]

theorem Stores.cons {b : ArgArray} {word : Token}
    (h : Stores (a.write i (some word)) (i + 1) words b) : Stores a i (word :: words) b where
  below x hx := (h.below x (Nat.lt_succ_of_lt hx)).trans (Function.update_of_ne hx.ne ..)
  holds m := by
    cases m with
    | zero => exact (h.below i i.lt_succ_self).trans (Function.update_self ..)
    | succ m =>
      rw [Nat.add_comm m, ← Nat.add_assoc, Nat.add_comm 1]
      exact h.holds m
  inside x hx := by
    have hx := h.inside x hx
    simp only [ArgArray.write, List.mem_append, List.mem_singleton] at hx
    rw [List.length_cons]
    rcases hx with (hx | rfl) | hx
    · exact .inl hx
    · exact .inr (Nat.le_add_right x _)
    · exact .inr (by omega)
  last := by
    have hlast := h.last
    rwa [Nat.add_assoc, Nat.add_comm 1] at hlast

theorem stores_storeWords (tokens : List Token) (h : a.HoldsFrom i []) :
    Stores a i (tokens.takeWhile fun t => !specialSymbols.contains t) (storeWords tokens i a) := by
  induction tokens generalizing a i with
  | nil => exact stores_nil h
  | cons token tokens ih =>
    rw [storeWords]
    cases hspecial : specialSymbols.contains token with
    | true =>
      rw [List.takeWhile_cons, hspecial, if_pos rfl, if_neg (by decide)]
      exact stores_nil h
    | false =>
      have hnext : (a.write i (some token)).HoldsFrom (i + 1) [] := by
        refine HoldsFrom.write_below (fun m => ?_) _
        rw [Nat.add_assoc]
        exact h (1 + m)
      rw [List.takeWhile_cons, hspecial, if_neg Bool.false_ne_true, if_pos (by decide)]
      exact (ih hnext).cons

end Loops

def leadingWords (line : List Char) : List Token :=
  (tokens line).takeWhile fun token => !specialSymbols.contains token

section Bound

variable {line : List Char}

theorem mem_leadingWords {token : Token} (h : token ∈ leadingWords line) : Plain token := by
  simpa [Plain] using List.mem_takeWhile_imp h

theorem leadingWords_length_le : (leadingWords line).length ≤ (tokens line).length :=
  (List.takeWhile_sublist _).length_le

theorem leadingWords_length_eq :
    (leadingWords line).length = (tokens line).length ↔ ∀ token ∈ tokens line, Plain token := by
  constructor
  · intro h token htoken
    rw [← (List.takeWhile_sublist _).eq_of_length h] at htoken
    exact mem_leadingWords htoken
  · intro h
    refine congrArg List.length (List.takeWhile_eq_self_iff.mpr fun token htoken => ?_)
    simpa [Plain] using h token htoken

theorem stores_line (line : List Char) :
    Stores .zero 0 (leadingWords line) (storeWords (tokens line) 0 .zero) :=
  stores_storeWords (tokens line) fun _ => rfl

theorem storedArgs_of_le (hlen : (tokens line).length ≤ maxTokenArraySize) :
    storedArgs line = (storeWords (tokens line) 0 .zero).read 0 := if_neg (Nat.not_lt.mpr hlen)

theorem storedArgs_holds (hlen : (tokens line).length ≤ maxTokenArraySize) :
    (storedArgs line).HoldsFrom 0 (leadingWords line) := by
  rw [storedArgs_of_le hlen]
  exact (stores_line line).holds.read 0

theorem parseLine_args (h : parseLine line ≠ .empty) : (parseLine line).args = leadingWords line := by
  have hlen : (tokens line).length ≤ maxTokenArraySize := by
    by_contra hlen
    exact h (if_pos (Nat.lt_of_not_le hlen))
  obtain ⟨words, items, htokens, hwords, _, hparse⟩ := (parseLine_cases hlen).resolve_left h
  have hspan := span_words hwords items
  rw [← htokens, List.span_eq_takeWhile_dropWhile] at hspan
  rw [hparse]
  exact (congrArg Prod.fst hspan).symm

theorem argsInside_of_holds {words : List Token} (hinside : (storedArgs line).Inside)
    (h : (storedArgs line).HoldsFrom 0 words) (hlt : words.length < maxTokenArraySize) :
    ArgsInside line := by
  refine ⟨hinside, ⟨words.length, hlt, fun i hi => ?_, ?_⟩, ?_, fun _ => ?_⟩
  · rw [← Nat.zero_add i, h i, List.getElem?_eq_getElem hi]
    exact Option.some_ne_none _
  · rw [← Nat.zero_add words.length, h words.length, List.getElem?_eq_none le_rfl]
  · obtain ⟨a, hfree, hused⟩ := freeArgs_used h
    refine ⟨_, a, hfree, fun x hx => (hused x hx).elim (hinside x) fun hle => ?_⟩
    exact (hle.trans_eq (Nat.zero_add _)).trans_lt hlt
  · obtain ⟨r, hcopy, hused, hused'⟩ := copyArgs_used .zero h
    refine ⟨_, r, hcopy, fun x hx => (hused x hx).elim (hinside x) fun hle => ?_, fun x hx => ?_⟩
    · exact (hle.trans_eq (Nat.zero_add _)).trans_lt hlt
    · refine (hused' x hx).elim (fun hnil => absurd hnil (List.not_mem_nil)) fun hle => ?_
      exact (hle.trans_eq (Nat.zero_add _)).trans_lt hlt

theorem not_inside_of_words (hlen : (tokens line).length ≤ maxTokenArraySize)
    (hwords : (leadingWords line).length = maxTokenArraySize) : ¬ (storedArgs line).Inside := by
  intro h
  have hlast := (stores_line line).last
  rw [Nat.zero_add, hwords] at hlast
  rw [storedArgs_of_le hlen] at h
  exact lt_irrefl _ (h _ (List.mem_append_left _ hlast))

end Bound

/-- The arguments are within their array unless the line is as many words as the array has entries. -/
theorem argsInside_iff (line : List Char) : ArgsInside line ↔
    ¬ ((tokens line).length = maxTokenArraySize ∧ ∀ token ∈ tokens line, Plain token) := by
  rcases Nat.lt_or_ge maxTokenArraySize (tokens line).length with hmany | hlen
  · have hzero : storedArgs line = .zero := if_pos hmany
    have hholds : (storedArgs line).HoldsFrom 0 [] := by
      rw [hzero]
      exact fun _ => rfl
    refine iff_of_true (argsInside_of_holds ?_ hholds (by decide)) fun h => hmany.ne' h.1
    rw [hzero]
    exact fun x hx => absurd hx List.not_mem_nil
  · constructor
    · rintro h ⟨hfull, hplain⟩
      exact not_inside_of_words hlen ((leadingWords_length_eq.mpr hplain).trans hfull) h.stored
    · intro h
      have hlt : (leadingWords line).length < maxTokenArraySize := by
        refine lt_of_le_of_ne (leadingWords_length_le.trans hlen) fun hfull => h ?_
        have heq : (leadingWords line).length = (tokens line).length :=
          le_antisymm leadingWords_length_le (hlen.trans hfull.ge)
        exact ⟨heq.symm.trans hfull, leadingWords_length_eq.mp heq⟩
      refine argsInside_of_holds (fun x hx => ?_) (storedArgs_holds hlen) hlt
      rw [storedArgs_of_le hlen] at hx
      rcases List.mem_append.mp hx with hstored | hread
      · rcases (stores_line line).inside x hstored with hnil | hle
        · exact absurd hnil List.not_mem_nil
        · exact (hle.trans_eq (Nat.zero_add _)).trans_lt hlt
      · rw [List.mem_singleton.mp hread]
        decide

/-- A line of 512 characters whose NULL is written at `args[256]`. -/
theorem words_outside : (List.replicate 256 "a ".toList).flatten.length ≤ maxInputSize ∧
    ¬ ArgsInside (List.replicate 256 "a ".toList).flatten := by
  refine ⟨by decide +kernel, fun h => not_inside_of_words ?_ ?_ h.stored⟩
  · decide +kernel
  · decide +kernel

/-- The size of `full_command`. -/
abbrev fullCommandSize : Nat := 1024

def spaced (words : List Token) : List Char := words.flatMap fun word => word ++ [' ']

/-- The string that `interpreter` puts together, without the NUL. -/
def fullCommand (c : Command) : List Char := spaced c.args

section FullCommand

variable {line stdin text rest : List Char}

theorem spaced_append (words words' : List Token) :
    spaced (words ++ words') = spaced words ++ spaced words' := List.flatMap_append

theorem spaced_cons_length (word : Token) (words : List Token) :
    (spaced (word :: words)).length = word.length + 1 + (spaced words).length := by
  rw [spaced, List.flatMap_cons, List.length_append, List.length_append, List.length_singleton,
    spaced]

theorem spaced_tokens_length (line : List Char) :
    (spaced (tokens line)).length ≤ line.length + 1 ∧
      ∀ c cs, line = c :: cs → isBlank c = true → (spaced (tokens line)).length ≤ line.length := by
  induction line with
  | nil => exact ⟨Nat.zero_le _, fun _ _ h => nomatch h⟩
  | cons c cs ih =>
    have hblank : isBlank c = true → (spaced (tokens (c :: cs))).length ≤ (c :: cs).length := by
      intro hc
      rw [tokens.eq_def]
      simp only [hc, if_true]
      exact ih.1
    refine ⟨?_, fun c' cs' h hc => hblank (by rwa [(List.cons.inj h).1])⟩
    cases hc : isBlank c with
    | true => exact (hblank hc).trans (Nat.le_succ _)
    | false =>
      rw [tokens.eq_def]
      simp only [hc, Bool.false_eq_true, if_false]
      cases cs with
      | nil => exact le_rfl
      | cons d ds =>
        simp only
        cases hd : isBlank d with
        | true =>
          have hlen := ih.2 d ds rfl hd
          rw [if_pos rfl, spaced_cons_length]
          simp only [List.length_cons, List.length_nil] at hlen ⊢
          omega
        | false =>
          have hlen := ih.1
          rw [if_neg Bool.false_ne_true]
          split
          · simp [spaced]
          · rename_i token tokens htokens
            rw [htokens, spaced_cons_length] at hlen
            rw [spaced_cons_length]
            simp only [List.length_cons] at hlen ⊢
            omega

theorem fullCommand_length (h : (parseLine line).background = true) :
    (fullCommand (parseLine line)).length + 1 ≤ line.length := by
  have hlen : (tokens line).length ≤ maxTokenArraySize := by
    by_contra hlen
    rw [show parseLine line = .empty from if_pos (Nat.lt_of_not_le hlen)] at h
    cases h
  rcases parseLine_cases hlen with hempty | ⟨words, items, htokens, _, _, hparse⟩
  · rw [hempty] at h
    cases h
  · rw [hparse] at h
    have hmem : .background ∈ items := of_decide_eq_true h
    obtain ⟨before, after, rfl⟩ := List.append_of_mem hmem
    have hle := (spaced_tokens_length line).1
    rw [htokens, List.flatMap_append, List.flatMap_cons] at hle
    simp only [spaced_append, List.length_append] at hle
    have hand : (spaced (Item.tokens .background)).length = 2 := rfl
    rw [hparse]
    show (spaced words).length + 1 ≤ line.length
    omega

theorem readInput_length_le (h : readInput stdin = (.line text, rest)) :
    text.length ≤ maxInputSize := by
  cases stdin with
  | nil => cases h
  | cons c cs =>
    have hbuffer : ((CText.takeLine (maxInputSize + 1) (c :: cs)).1.takeWhile
        (· ≠ '\x00')).length ≤ maxInputSize + 1 :=
      (List.takeWhile_sublist _).length_le.trans (CText.takeLine_line_length_le _ _)
    rw [readInput, CText.fgets_of_ne_nil (maxInputSize + 1) (List.cons_ne_nil c cs)] at h
    simp only at h
    split at h
    · rename_i hlast
      cases h
      rw [List.getLast?_eq_none_iff.mp hlast]
      exact Nat.zero_le _
    · split at h
      · cases h
      · have htext := Input.line.inj (congrArg Prod.fst h)
        rw [← htext, List.length_dropLast]
        omega

end FullCommand

/-- The text of a background job and its NUL fit. -/
theorem getCommand_fullCommand_length (stdin : List Char)
    (h : (getCommand stdin).1.background = true) :
    (fullCommand (getCommand stdin).1).length + 1 ≤ fullCommandSize := by
  unfold getCommand at h ⊢
  split at h
  · rename_i text rest hread
    exact (fullCommand_length h).trans (readInput_length_le hread)
  · cases h

def longestLine : List Char := List.replicate 1022 'x' ++ " &\n".toList

theorem fullCommand_longest_fits :
    (fullCommand (getCommand longestLine).1).length + 1 ≤ fullCommandSize :=
  getCommand_fullCommand_length _ (by decide +kernel)

/-- There the buffer is full. -/
example : (fullCommand (getCommand longestLine).1).length + 1 = fullCommandSize := by decide +kernel

end OsLab.Shell
