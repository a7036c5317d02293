import Mathlib.Data.List.SplitBy
import Mathlib.Tactic.Linarith
import OsLab.Shell.Command

/-! The grammar of the command line, and what `get_command` makes of the lines outside it. It takes
any token for the file of a redirection, and a `&` wherever a redirection may begin. -/

namespace OsLab.Shell

abbrev Token := List Char

inductive RedirectionKind where
  | input
  | output
  | append
deriving DecidableEq, Repr

def RedirectionKind.symbol : RedirectionKind → Token
  | .input => inputRedirectionSymbol
  | .output => outputRedirectionSymbol
  | .append => appendRedirectionSymbol

structure Redirection where
  kind : RedirectionKind
  file : Token
deriving DecidableEq, Repr

namespace Redirection

def tokens (r : Redirection) : List Token := [r.kind.symbol, r.file]

def inputFile? (r : Redirection) : Option Token := if r.kind = .input then some r.file else none

def outputFile? (r : Redirection) : Option Token := if r.kind = .input then none else some r.file

end Redirection

def Plain (token : Token) : Prop := token ∉ specialSymbols

instance : DecidablePred Plain := fun _ => inferInstanceAs (Decidable (¬ _))

structure Line where
  words : List Token
  redirections : List Redirection
  background : Bool

namespace Line

def tokens (l : Line) : List Token :=
  l.words ++ l.redirections.flatMap Redirection.tokens ++
    if l.background then [backgroundIndicatorSymbol] else []

structure Valid (l : Line) : Prop where
  words_ne : l.words ≠ []
  words_plain : ∀ word ∈ l.words, Plain word
  files_plain : ∀ r ∈ l.redirections, Plain r.file
  inputs : (l.redirections.filterMap Redirection.inputFile?).length ≤ 1
  outputs : (l.redirections.filterMap Redirection.outputFile?).length ≤ 1

def command (l : Line) : Command where
  args := l.words
  inputFile := (l.redirections.filterMap Redirection.inputFile?).head?
  outputFile := (l.redirections.filterMap Redirection.outputFile?).head?
  append := l.redirections.any fun r => r.kind = .append
  background := l.background

end Line

/-- A command is made of the tokens exactly if they are a line of the grammar, and then it is the
command that the line says. -/
def FollowsGrammar (tokens : List Token) (c : Command) : Prop :=
  (c.command ≠ none ↔ ∃ l : Line, l.Valid ∧ tokens = l.tokens) ∧
    ∀ l : Line, l.Valid → tokens = l.tokens → c = l.command

/-- What the loop of `get_command` takes at once. -/
inductive Item where
  | redirection (r : Redirection)
  | background
deriving DecidableEq, Repr

namespace Item

def tokens : Item → List Token
  | .redirection r => r.tokens
  | .background => [backgroundIndicatorSymbol]

def redirection? : Item → Option Redirection
  | .redirection r => some r
  | .background => none

end Item

def redirectionKind? (token : Token) : Option RedirectionKind :=
  if token = inputRedirectionSymbol then some .input
  else if token = outputRedirectionSymbol then some .output
  else if token = appendRedirectionSymbol then some .append
  else none

/-- The tokens in steps of the loop; `none` if it comes to a word or to the end of a redirection
without a file. -/
def items? : List Token → Option (List Item)
  | [] => some []
  | token :: rest =>
    match redirectionKind? token with
    | some kind =>
      match rest with
      | [] => none
      | file :: rest => (items? rest).map (.redirection ⟨kind, file⟩ :: ·)
    | none =>
      if token = backgroundIndicatorSymbol then (items? rest).map (.background :: ·) else none

namespace Item

def inputs (items : List Item) : List Token :=
  (items.filterMap redirection?).filterMap Redirection.inputFile?

def outputs (items : List Item) : List Token :=
  (items.filterMap redirection?).filterMap Redirection.outputFile?

def appends (items : List Item) : Bool :=
  (items.filterMap redirection?).any fun r => r.kind = .append

end Item

def Command.redirected (c : Command) (items : List Item) : Option Command :=
  if (c.inputFile.toList ++ Item.inputs items).length ≤ 1 ∧
      (c.outputFile.toList ++ Item.outputs items).length ≤ 1 then
    some {
      args := c.args
      inputFile := (c.inputFile.toList ++ Item.inputs items).head?
      outputFile := (c.outputFile.toList ++ Item.outputs items).head?
      append := c.append || Item.appends items
      background := c.background || decide (.background ∈ items) }
  else none

section Items

variable {token : Token} {tokens : List Token} {items : List Item}

theorem redirectionKind?_symbol (kind : RedirectionKind) :
    redirectionKind? kind.symbol = some kind := by
  cases kind <;> decide

theorem redirectionKind?_eq_some {kind : RedirectionKind} :
    redirectionKind? token = some kind ↔ token = kind.symbol := by
  constructor
  · intro h
    unfold redirectionKind? at h
    split_ifs at h with h1 h2 h3
    · rw [← Option.some.inj h]
      exact h1
    · rw [← Option.some.inj h]
      exact h2
    · rw [← Option.some.inj h]
      exact h3
  · rintro rfl
    exact redirectionKind?_symbol kind

theorem items?_tokens (items : List Item) : items? (items.flatMap Item.tokens) = some items := by
  induction items with
  | nil => rfl
  | cons item items ih =>
    rw [List.flatMap_cons]
    cases item with
    | redirection r =>
      show items? (r.kind.symbol :: r.file :: items.flatMap Item.tokens) = _
      rw [items?, redirectionKind?_symbol]
      simp only [ih, Option.map_some]
    | background =>
      show items? (backgroundIndicatorSymbol :: items.flatMap Item.tokens) = _
      rw [items?, show redirectionKind? backgroundIndicatorSymbol = none by decide, ih]
      rfl

theorem items?_eq_some : items? tokens = some items ↔ tokens = items.flatMap Item.tokens := by
  constructor
  · intro h
    induction tokens using items?.induct generalizing items with
    | case1 =>
      cases h
      rfl
    | case2 token kind hkind =>
      simp [items?, hkind] at h
    | case3 token kind hkind file rest ih =>
      simp only [items?, hkind, Option.map_eq_some_iff] at h
      obtain ⟨items, hitems, rfl⟩ := h
      rw [List.flatMap_cons, ← ih hitems, redirectionKind?_eq_some.mp hkind]
      rfl
    | case4 rest hkind ih =>
      simp only [items?, hkind, if_true, Option.map_eq_some_iff] at h
      obtain ⟨items, hitems, rfl⟩ := h
      rw [List.flatMap_cons, ← ih hitems]
      rfl
    | case5 token rest hkind hne =>
      simp [items?, hkind, hne] at h
  · rintro rfl
    exact items?_tokens items

end Items

section Loop

variable {c c' : Command} {tokens : List Token} {items : List Item}

theorem inputs_redirection (r : Redirection) (items : List Item) :
    Item.inputs (.redirection r :: items) = r.inputFile?.toList ++ Item.inputs items := by
  unfold Item.inputs
  rw [List.filterMap_cons_some (show Item.redirection? (.redirection r) = some r from rfl)]
  cases h : r.inputFile? with
  | none => rw [List.filterMap_cons_none h, Option.toList_none, List.nil_append]
  | some file => rw [List.filterMap_cons_some h, Option.toList_some, List.singleton_append]

theorem outputs_redirection (r : Redirection) (items : List Item) :
    Item.outputs (.redirection r :: items) = r.outputFile?.toList ++ Item.outputs items := by
  unfold Item.outputs
  rw [List.filterMap_cons_some (show Item.redirection? (.redirection r) = some r from rfl)]
  cases h : r.outputFile? with
  | none => rw [List.filterMap_cons_none h, Option.toList_none, List.nil_append]
  | some file => rw [List.filterMap_cons_some h, Option.toList_some, List.singleton_append]

theorem appends_redirection (r : Redirection) (items : List Item) :
    Item.appends (.redirection r :: items) = (decide (r.kind = .append) || Item.appends items) := rfl

theorem redirected_nil : c.redirected [] = some c := by
  obtain ⟨args, inputFile, outputFile, append, background⟩ := c
  cases inputFile <;> cases outputFile <;>
    simp [Command.redirected, Item.inputs, Item.outputs, Item.appends]

theorem redirected_input {file : Token} (hnone : c.inputFile = none) :
    c.redirected (.redirection ⟨.input, file⟩ :: items) =
      Command.redirected { c with inputFile := some file } items := by
  have hin : Redirection.inputFile? ⟨.input, file⟩ = some file := rfl
  have hout : Redirection.outputFile? ⟨.input, file⟩ = none := rfl
  simp [Command.redirected, inputs_redirection, outputs_redirection, appends_redirection, hin, hout,
    hnone]

theorem redirected_output {kind : RedirectionKind} {file : Token} (hkind : kind ≠ .input)
    (hnone : c.outputFile = none) :
    c.redirected (.redirection ⟨kind, file⟩ :: items) =
      Command.redirected { c with
        outputFile := some file
        append := c.append || decide (kind = .append) } items := by
  have hin : Redirection.inputFile? ⟨kind, file⟩ = none := if_neg hkind
  have hout : Redirection.outputFile? ⟨kind, file⟩ = some file := if_neg hkind
  simp [Command.redirected, inputs_redirection, outputs_redirection, appends_redirection, hin, hout,
    hnone, Bool.or_assoc]

theorem redirected_background :
    c.redirected (.background :: items) = Command.redirected { c with background := true } items := by
  have hin : Item.inputs (.background :: items) = Item.inputs items := rfl
  have hout : Item.outputs (.background :: items) = Item.outputs items := rfl
  have happend : Item.appends (.background :: items) = Item.appends items := rfl
  simp [Command.redirected, hin, hout, happend]

theorem redirected_twice {r : Redirection}
    (h : r.kind = .input ∧ c.inputFile ≠ none ∨ r.kind ≠ .input ∧ c.outputFile ≠ none) :
    c.redirected (.redirection r :: items) = none := by
  refine if_neg fun hle => ?_
  rw [inputs_redirection, outputs_redirection] at hle
  rcases h with ⟨hkind, hne⟩ | ⟨hkind, hne⟩
  · obtain ⟨file, hfile⟩ := Option.ne_none_iff_exists'.mp hne
    simp [hfile, Redirection.inputFile?, hkind] at hle
  · obtain ⟨file, hfile⟩ := Option.ne_none_iff_exists'.mp hne
    simp [hfile, Redirection.outputFile?, hkind] at hle

def Command.redirect (c : Command) (kind : RedirectionKind) (file : Token) : Command :=
  if kind = .input then { c with inputFile := some file }
  else { c with outputFile := some file, append := c.append || decide (kind = .append) }

def Command.HasFile (c : Command) (kind : RedirectionKind) : Prop :=
  kind = .input ∧ c.inputFile ≠ none ∨ kind ≠ .input ∧ c.outputFile ≠ none

theorem redirected_redirection {r : Redirection} (h : ¬ c.HasFile r.kind) :
    c.redirected (.redirection r :: items) = (c.redirect r.kind r.file).redirected items := by
  rw [Command.HasFile, not_or] at h
  obtain ⟨kind, file⟩ := r
  by_cases hkind : kind = .input
  · subst hkind
    rw [redirected_input (by simpa using h.1), Command.redirect, if_pos rfl]
  · rw [redirected_output hkind (by simpa [hkind] using h.2), Command.redirect, if_neg hkind]

theorem redirections_symbol (c : Command) (kind : RedirectionKind) (file : Token)
    (rest : List Token) (h : ¬ c.HasFile kind) :
    redirections c (kind.symbol :: file :: rest) = redirections (c.redirect kind file) rest := by
  rw [Command.HasFile, not_or] at h
  cases kind with
  | input =>
    have hnone : c.inputFile = none := by simpa using h.1
    simp [redirections, RedirectionKind.symbol, Command.redirect, hnone]
  | output =>
    have hnone : c.outputFile = none := by simpa using h.2
    simp [redirections, RedirectionKind.symbol, Command.redirect, hnone, inputRedirectionSymbol,
      outputRedirectionSymbol]
  | append =>
    have hnone : c.outputFile = none := by simpa using h.2
    simp [redirections, RedirectionKind.symbol, Command.redirect, hnone, inputRedirectionSymbol,
      outputRedirectionSymbol, appendRedirectionSymbol]

theorem redirections_twice (c : Command) (kind : RedirectionKind) (rest : List Token)
    (h : c.HasFile kind) : redirections c (kind.symbol :: rest) = none := by
  cases kind with
  | input =>
    have hsome : c.inputFile ≠ none := by simpa [Command.HasFile] using h
    exact (redirections.eq_def c _).trans ((if_pos rfl).trans (if_pos hsome))
  | output =>
    have hsome : c.outputFile ≠ none := by simpa [Command.HasFile] using h
    refine (redirections.eq_def c _).trans ((if_neg (by decide)).trans ?_)
    exact (if_pos rfl).trans (if_pos hsome)
  | append =>
    have hsome : c.outputFile ≠ none := by simpa [Command.HasFile] using h
    refine (redirections.eq_def c _).trans ((if_neg (by decide)).trans ?_)
    exact (if_neg (by decide)).trans ((if_pos rfl).trans (if_pos hsome))

theorem redirections_missing (c : Command) (kind : RedirectionKind) :
    redirections c [kind.symbol] = none := by
  by_cases h : c.HasFile kind
  · exact redirections_twice c kind [] h
  · cases kind <;> simp [redirections, RedirectionKind.symbol, inputRedirectionSymbol,
      outputRedirectionSymbol, appendRedirectionSymbol]

theorem redirections_background (c : Command) (rest : List Token) :
    redirections c (backgroundIndicatorSymbol :: rest) =
      redirections { c with background := true } rest := by
  refine (redirections.eq_def c _).trans ((if_neg (by decide)).trans ((if_neg (by decide)).trans ?_))
  exact (if_neg (by decide)).trans (if_pos rfl)

theorem redirections_word (c : Command) {token : Token} (rest : List Token)
    (hkind : redirectionKind? token = none) (hne : token ≠ backgroundIndicatorSymbol) :
    redirections c (token :: rest) = none := by
  unfold redirectionKind? at hkind
  split_ifs at hkind with h1 h2 h3
  refine (redirections.eq_def c _).trans ((if_neg h1).trans ((if_neg h2).trans ?_))
  exact (if_neg h3).trans (if_neg hne)

/-- The loop ends with a command exactly if it can take the tokens in steps and no redirection is
there twice. -/
theorem redirections_eq (c : Command) (tokens : List Token) :
    redirections c tokens = (items? tokens).bind c.redirected := by
  induction tokens using items?.induct generalizing c with
  | case1 => rw [items?, Option.bind_some, redirected_nil, redirections]
  | case2 token kind hkind =>
    obtain rfl := redirectionKind?_eq_some.mp hkind
    rw [redirections_missing]
    simp [items?, hkind]
  | case3 token kind hkind file rest ih =>
    obtain rfl := redirectionKind?_eq_some.mp hkind
    have hitems : items? (kind.symbol :: file :: rest) =
        (items? rest).map (.redirection ⟨kind, file⟩ :: ·) := by simp only [items?, hkind]
    rw [hitems, Option.bind_map]
    by_cases h : c.HasFile kind
    · rw [redirections_twice c kind _ h]
      have htwice : ∀ items, c.redirected (.redirection ⟨kind, file⟩ :: items) = none :=
        fun items => redirected_twice h
      simp [htwice]
    · rw [redirections_symbol c kind file rest h, ih]
      refine Option.bind_congr fun items _ => ?_
      exact (redirected_redirection (r := ⟨kind, file⟩) h).symm
  | case4 rest hkind ih =>
    have hitems : items? (backgroundIndicatorSymbol :: rest) =
        (items? rest).map (.background :: ·) := by simp only [items?, hkind, if_true]
    rw [hitems, Option.bind_map, redirections_background, ih]
    exact Option.bind_congr fun items _ => redirected_background.symm
  | case5 token rest hkind hne =>
    rw [redirections_word c rest hkind hne]
    simp [items?, hkind, hne]

end Loop

namespace Line

def items (l : Line) : List Item :=
  l.redirections.map .redirection ++ if l.background then [.background] else []

variable {l : Line}

theorem tokens_eq (l : Line) : l.tokens = l.words ++ l.items.flatMap Item.tokens := by
  have hredirections : (l.redirections.map Item.redirection).flatMap Item.tokens =
      l.redirections.flatMap Redirection.tokens := by
    rw [List.flatMap_map]
    rfl
  rw [tokens, items, List.flatMap_append, hredirections, List.append_assoc]
  cases l.background <;> rfl

theorem redirections_items (l : Line) : l.items.filterMap Item.redirection? = l.redirections := by
  have hmap : (l.redirections.map Item.redirection).filterMap Item.redirection? =
      l.redirections := by
    rw [List.filterMap_map]
    exact List.filterMap_some
  rw [items, List.filterMap_append, hmap]
  cases l.background <;> simp [Item.redirection?]

theorem background_mem_items (l : Line) : .background ∈ l.items ↔ l.background = true := by
  unfold items
  cases l.background <;> simp

theorem background_notMem_dropLast (l : Line) : .background ∉ l.items.dropLast := by
  have hmap : .background ∉ l.redirections.map Item.redirection := by simp
  unfold items
  cases l.background with
  | false =>
    rw [if_neg Bool.false_ne_true, List.append_nil]
    exact fun hmem => hmap (List.dropLast_subset _ hmem)
  | true => rwa [if_pos rfl, List.dropLast_concat]

end Line

theorem exists_line (words : List Token) {items : List Item} (h : .background ∉ items.dropLast) :
    ∃ l : Line, l.words = words ∧ l.items = items := by
  have hredirections : ∀ items : List Item, .background ∉ items →
      (items.filterMap Item.redirection?).map Item.redirection = items := by
    intro items hmem
    induction items with
    | nil => rfl
    | cons item items ih =>
      obtain ⟨hitem, hitems⟩ := List.ne_and_not_mem_of_not_mem_cons hmem
      cases item with
      | background => exact absurd rfl hitem
      | redirection r =>
        rw [List.filterMap_cons_some (show Item.redirection? (.redirection r) = some r from rfl),
          List.map_cons, ih hitems]
  by_cases hlast : .background ∈ items
  · have hne : items ≠ [] := List.ne_nil_of_mem hlast
    have hsplit := List.dropLast_append_getLast hne
    have hget : items.getLast hne = .background := by
      rw [← hsplit] at hlast
      rcases List.mem_append.mp hlast with hmem | hmem
      · exact absurd hmem h
      · exact (List.mem_singleton.mp hmem).symm
    refine ⟨⟨words, items.dropLast.filterMap Item.redirection?, true⟩, rfl, ?_⟩
    rw [Line.items, hredirections _ h, if_pos rfl, ← hget, hsplit]
  · refine ⟨⟨words, items.filterMap Item.redirection?, false⟩, rfl, ?_⟩
    rw [Line.items, hredirections _ hlast, if_neg Bool.false_ne_true, List.append_nil]

/-- If the tokens are words and then items with no redirection there twice, then no file is a special
symbol and a `&` comes last. -/
def NoneMisplaced (tokens : List Token) : Prop :=
  ∀ words items, tokens = words ++ items.flatMap Item.tokens → words ≠ [] →
    (∀ word ∈ words, Plain word) → (Item.inputs items).length ≤ 1 →
    (Item.outputs items).length ≤ 1 →
      (∀ r, .redirection r ∈ items → Plain r.file) ∧ .background ∉ items.dropLast

section Parser

variable {words : List Token} {items : List Item} {line : List Char}

theorem span_words (hwords : ∀ word ∈ words, Plain word) (items : List Item) :
    (words ++ items.flatMap Item.tokens).span (fun token => !specialSymbols.contains token) =
      (words, items.flatMap Item.tokens) := by
  have hall : ∀ word ∈ words, (!specialSymbols.contains word) = true := fun word hword => by
    simpa [Plain] using hwords word hword
  have hitems : (items.flatMap Item.tokens).takeWhile (fun token => !specialSymbols.contains token) =
      [] ∧ (items.flatMap Item.tokens).dropWhile (fun token => !specialSymbols.contains token) =
      items.flatMap Item.tokens := by
    cases items with
    | nil => exact ⟨rfl, rfl⟩
    | cons item items =>
      cases item with
      | background => exact ⟨rfl, rfl⟩
      | redirection r =>
        obtain ⟨kind, file⟩ := r
        cases kind <;> exact ⟨rfl, rfl⟩
  rw [List.span_eq_takeWhile_dropWhile, List.takeWhile_append_of_pos hall, hitems.1,
    List.append_nil, List.dropWhile_append_of_pos hall, hitems.2]

theorem parseLine_of_items (hlen : (tokens line).length ≤ maxTokenArraySize)
    (htokens : tokens line = words ++ items.flatMap Item.tokens)
    (hwords : ∀ word ∈ words, Plain word) :
    parseLine line = (Command.redirected ⟨words, none, none, false, false⟩ items).getD .empty := by
  rw [htokens] at hlen
  simp only [parseLine, htokens, if_neg (Nat.not_lt.mpr hlen), span_words hwords, redirections_eq,
    items?_tokens, Option.bind_some]
  rfl

theorem redirected_words (words : List Token) (items : List Item) :
    Command.redirected ⟨words, none, none, false, false⟩ items =
      if (Item.inputs items).length ≤ 1 ∧ (Item.outputs items).length ≤ 1 then
        some ⟨words, (Item.inputs items).head?, (Item.outputs items).head?, Item.appends items,
          decide (.background ∈ items)⟩
      else none := by
  simp [Command.redirected]

theorem parseLine_cases (hlen : (tokens line).length ≤ maxTokenArraySize) :
    parseLine line = .empty ∨
      ∃ words items, tokens line = words ++ items.flatMap Item.tokens ∧
        (∀ word ∈ words, Plain word) ∧
        ((Item.inputs items).length ≤ 1 ∧ (Item.outputs items).length ≤ 1) ∧
        parseLine line = ⟨words, (Item.inputs items).head?, (Item.outputs items).head?,
          Item.appends items, decide (.background ∈ items)⟩ := by
  let words := (tokens line).takeWhile fun token => !specialSymbols.contains token
  let rest := (tokens line).dropWhile fun token => !specialSymbols.contains token
  have hparse : parseLine line =
      ((items? rest).bind (Command.redirected ⟨words, none, none, false, false⟩)).getD .empty := by
    simp only [parseLine, if_neg (Nat.not_lt.mpr hlen), List.span_eq_takeWhile_dropWhile,
      redirections_eq]
    rfl
  cases hitems : items? rest with
  | none =>
    rw [hparse, hitems]
    exact .inl rfl
  | some items =>
    rw [hparse, hitems, Option.bind_some, redirected_words]
    split
    · rename_i hcount
      refine .inr ⟨words, items, ?_, fun word hword => ?_, hcount, rfl⟩
      · rw [← items?_eq_some.mp hitems, List.takeWhile_append_dropWhile]
      · simpa [Plain] using List.mem_takeWhile_imp hword
    · exact .inl rfl

theorem command_ne_none_iff (hlen : (tokens line).length ≤ maxTokenArraySize) :
    (parseLine line).command ≠ none ↔ ∃ words items, tokens line = words ++ items.flatMap Item.tokens ∧
      words ≠ [] ∧ (∀ word ∈ words, Plain word) ∧ (Item.inputs items).length ≤ 1 ∧
      (Item.outputs items).length ≤ 1 := by
  constructor
  · intro hne
    rcases parseLine_cases hlen with hempty | ⟨words, items, htokens, hwords, hcount, hparse⟩
    · rw [hempty] at hne
      exact absurd rfl hne
    · refine ⟨words, items, htokens, fun hnil => hne ?_, hwords, hcount⟩
      rw [hparse, Command.command, hnil]
      rfl
  · rintro ⟨words, items, htokens, hne, hwords, hcount⟩
    rw [parseLine_of_items hlen htokens hwords, redirected_words, if_pos hcount, Option.getD_some,
      Command.command]
    simpa using hne

theorem parseLine_of_valid {l : Line} (hlen : (tokens line).length ≤ maxTokenArraySize)
    (hvalid : l.Valid) (htokens : tokens line = l.tokens) : parseLine line = l.command := by
  rw [Line.tokens_eq] at htokens
  have hcount : (Item.inputs l.items).length ≤ 1 ∧ (Item.outputs l.items).length ≤ 1 := by
    rw [Item.inputs, Item.outputs, Line.redirections_items]
    exact ⟨hvalid.inputs, hvalid.outputs⟩
  rw [parseLine_of_items hlen htokens hvalid.words_plain, redirected_words, if_pos hcount,
    Option.getD_some, Item.inputs, Item.outputs, Item.appends, Line.redirections_items]
  unfold Line.command
  congr 1
  rw [Bool.eq_iff_iff, decide_eq_true_eq, Line.background_mem_items]

theorem valid_iff {l : Line} : l.Valid ↔ l.words ≠ [] ∧ (∀ word ∈ l.words, Plain word) ∧
    (Item.inputs l.items).length ≤ 1 ∧ (Item.outputs l.items).length ≤ 1 ∧
    ∀ r, .redirection r ∈ l.items → Plain r.file := by
  have hmem : ∀ r, .redirection r ∈ l.items ↔ r ∈ l.redirections := fun r => by
    rw [← l.redirections_items, List.mem_filterMap]
    constructor
    · exact fun h => ⟨_, h, rfl⟩
    · rintro ⟨item, hitem, hr⟩
      cases item with
      | background => cases hr
      | redirection r' =>
        obtain rfl := Option.some.inj hr
        exact hitem
  rw [Item.inputs, Item.outputs, Line.redirections_items]
  simp only [hmem]
  exact ⟨fun h => ⟨h.words_ne, h.words_plain, h.inputs, h.outputs, h.files_plain⟩,
    fun h => ⟨h.1, h.2.1, h.2.2.2.2, h.2.2.1, h.2.2.2.1⟩⟩

theorem Line.Valid.items?_eq {l : Line} (h : l.Valid) :
    items? (l.tokens.span fun token => !specialSymbols.contains token).2 = some l.items := by
  rw [l.tokens_eq, span_words h.words_plain, items?_tokens]

theorem parseLine_followsGrammar_iff (hlen : (tokens line).length ≤ maxTokenArraySize) :
    FollowsGrammar (tokens line) (parseLine line) ↔ NoneMisplaced (tokens line) := by
  constructor
  · intro h words items htokens hne hwords hin hout
    obtain ⟨l, hvalid, hline⟩ := h.1.mp ((command_ne_none_iff hlen).mpr
      ⟨words, items, htokens, hne, hwords, hin, hout⟩)
    have hitems : l.items = items := by
      have hread := hvalid.items?_eq
      rw [← hline, htokens, span_words hwords, items?_tokens] at hread
      exact (Option.some.inj hread).symm
    rw [← hitems]
    exact ⟨(valid_iff.mp hvalid).2.2.2.2, l.background_notMem_dropLast⟩
  · intro h
    refine ⟨⟨fun hne => ?_, ?_⟩, fun l hvalid hline => parseLine_of_valid hlen hvalid hline⟩
    · obtain ⟨words, items, htokens, hne, hwords, hin, hout⟩ := (command_ne_none_iff hlen).mp hne
      obtain ⟨hfiles, hlast⟩ := h words items htokens hne hwords hin hout
      obtain ⟨l, rfl, rfl⟩ := exists_line words hlast
      exact ⟨l, valid_iff.mpr ⟨hne, hwords, hin, hout, hfiles⟩, by rw [l.tokens_eq, htokens]⟩
    · rintro ⟨l, hvalid, hline⟩
      rw [parseLine_of_valid hlen hvalid hline]
      simpa [Line.command, Command.command] using hvalid.words_ne

end Parser

/-- Which lines `get_command` treats by the grammar. -/
theorem getCommand_followsGrammar_iff {line rest : List Char} (hnewline : '\n' ∉ line)
    (hnul : '\x00' ∉ line) (hlen : line.length ≤ maxInputSize)
    (htokens : (tokens line).length < maxTokenArraySize) :
    FollowsGrammar (tokens line) (getCommand (line ++ '\n' :: rest)).1 ↔
      NoneMisplaced (tokens line) := by
  have hget : (getCommand (line ++ '\n' :: rest)).1 = parseLine line := by
    rw [getCommand, readInput_line hnewline hnul hlen]
  rw [hget]
  exact parseLine_followsGrammar_iff htokens.le

theorem sortLine_noneMisplaced : NoneMisplaced (tokens "sort -r < in >> out &".toList) := by
  intro words items htokens _ hwords _ _
  have hread := span_words hwords items
  rw [← htokens] at hread
  have htail : items.flatMap Item.tokens = [['<'], "in".toList, ['>', '>'], "out".toList, ['&']] :=
    (congrArg Prod.snd hread).symm.trans (by decide +kernel)
  have hitems := items?_tokens items
  rw [htail] at hitems
  have hlist : items = [.redirection ⟨.input, "in".toList⟩, .redirection ⟨.append, "out".toList⟩,
      .background] :=
    Option.some.inj (hitems.symm.trans (by decide +kernel))
  rw [hlist]
  refine ⟨fun r hr => ?_, by decide +kernel⟩
  simp only [List.mem_cons, Item.redirection.injEq, List.not_mem_nil, or_false, reduceCtorEq] at hr
  obtain rfl | rfl := hr
  · exact (by decide +kernel : Plain "in".toList)
  · exact (by decide +kernel : Plain "out".toList)

theorem getCommand_followsGrammar_sort :
    FollowsGrammar (tokens "sort -r < in >> out &".toList)
        (getCommand "sort -r < in >> out &\n".toList).1 ∧
      (getCommand "sort -r < in >> out &\n".toList).1 =
        ⟨["sort".toList, "-r".toList], some "in".toList, some "out".toList, true, true⟩ :=
  have hiff : FollowsGrammar (tokens "sort -r < in >> out &".toList)
      (getCommand ("sort -r < in >> out &".toList ++ '\n' :: [])).1 ↔
        NoneMisplaced (tokens "sort -r < in >> out &".toList) :=
    getCommand_followsGrammar_iff (by decide) (by decide) (by decide) (by decide)
  ⟨hiff.mpr sortLine_noneMisplaced, by decide +kernel⟩

/-- A `&` is taken for a file name, and one in front of a redirection is no error. -/
theorem getCommand_misplaced :
    ¬ FollowsGrammar (tokens "cat < &".toList) (getCommand "cat < &\n".toList).1 ∧
      ¬ FollowsGrammar (tokens "cat & > f".toList) (getCommand "cat & > f\n".toList).1 := by
  constructor
  · intro h
    obtain ⟨l, hvalid, htokens⟩ := h.1.mp (by decide +kernel)
    have hitems := hvalid.items?_eq
    rw [← htokens] at hitems
    have hread : some l.items = some [.redirection ⟨.input, ['&']⟩] :=
      hitems.symm.trans (by decide +kernel)
    have hplain := (valid_iff.mp hvalid).2.2.2.2 ⟨.input, ['&']⟩ (by
      rw [Option.some.inj hread]
      exact List.mem_singleton_self _)
    exact absurd hplain (by decide)
  · intro h
    obtain ⟨l, hvalid, htokens⟩ := h.1.mp (by decide +kernel)
    have hitems := hvalid.items?_eq
    rw [← htokens] at hitems
    have hread : some l.items = some [.background, .redirection ⟨.output, ['f']⟩] :=
      hitems.symm.trans (by decide +kernel)
    have hlast := l.background_notMem_dropLast
    rw [Option.some.inj hread] at hlast
    exact hlast (List.mem_singleton_self _)

end OsLab.Shell
