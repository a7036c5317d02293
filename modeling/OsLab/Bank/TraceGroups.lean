import OsLab.Bank.Loader
import OsLab.Foundation.Grouping

/-! How `load_transactions` groups the lines of a trace. What the trace says is read off its text,
with exact numbers. While no label has the number 0, the table holds one transaction for each label
that has been read; the search for the number 0 finds an entry that is not in use, so that no
transaction ever gets it. -/

namespace OsLab.Bank

open CText Grouping

def OpType.name : OpType → List Char
  | .deposit => "DEPOSIT".toList
  | .withdraw => "WITHDRAW".toList
  | .transfer => "TRANSFER".toList
  | .balance => "BALANCE".toList

def OpType.ofName? (name : List Char) : Option OpType :=
  [OpType.deposit, .withdraw, .transfer, .balance].find? fun type => type.name = name

/-- A data line reads `T<k> <tick> <operation> <account> ...`. Its numbers are exact. -/
structure DataLine where
  label : List Char
  tick : Int
  operation : LoadedOperation
deriving DecidableEq, Repr

def firstNumber (text : List Char) : Int := (scanInt text).elim 0 Prod.fst

def secondNumber (text : List Char) : Int := (scanInt text).elim 0 fun r => firstNumber r.2

/-- Behind the account, a transfer gives its target and its amount, a deposit or a withdrawal its
amount. -/
def operationOf (type : OpType) (account : Int) (rest : List Char) : LoadedOperation where
  type := type
  accountId := account
  amountCentavos :=
    match type with
    | .deposit | .withdraw => firstNumber rest
    | .transfer => secondNumber rest
    | .balance => 0
  targetAccount := if type = .transfer then firstNumber rest else 0

def labelNumber (label : List Char) : Nat := digitsValue (label.drop 1)

/-- The label is `T` with a number that has no leading zeros. -/
def IsLabel (label : List Char) : Prop :=
  label = 'T' :: Nat.toDigits 10 (labelNumber label) ∧ label.length ≤ 9

instance : DecidablePred IsLabel := fun _ => inferInstanceAs (Decidable (_ ∧ _))

def dataOf (line : List Char) : Option DataLine := do
  let (label, rest) ← scanWord line
  let (tick, rest) ← scanInt rest
  let (name, rest) ← scanWord rest
  let type ← OpType.ofName? name
  let (account, rest) ← scanInt rest
  if IsLabel label then some ⟨label, tick, operationOf type account rest⟩ else none

def traceData (lines : List (List Char)) : List DataLine := lines.filterMap dataOf

/-- The transaction of a label: its number, the tick of its first line, and its operations. -/
def labelTransaction (data : List DataLine) (label : List Char) : LoadedTransaction where
  txId := labelNumber label
  ops := (members DataLine.label label data).map DataLine.operation
  startTick := (members DataLine.label label data).head?.elim 0 DataLine.tick
  status := .running

def labelTransactions (data : List DataLine) : List LoadedTransaction :=
  (keys DataLine.label data).map (labelTransaction data)

/-- What a trace file may hold: comments, blank lines and data lines, with at most so many labels
and lines of each label. -/
structure WellFormedTrace (lines : List (List Char)) : Prop where
  read : ∀ line ∈ lines, line.head? = some '#' ∨ line.all isSpace = true ∨ (dataOf line).isSome
  labels : (keys DataLine.label (traceData lines)).length < maxTransactions - 1
  operations : ∀ label, (members DataLine.label label (traceData lines)).length ≤ maxOperations

def LoadedOperation.Fits (op : LoadedOperation) : Prop :=
  FitsInt op.accountId ∧ FitsInt op.amountCentavos ∧ FitsInt op.targetAccount

def LoadedTransaction.Fits (tx : LoadedTransaction) : Prop :=
  FitsInt tx.startTick ∧ ∀ op ∈ tx.ops, op.Fits

instance : DecidablePred LoadedOperation.Fits := fun _ => inferInstanceAs (Decidable (_ ∧ _ ∧ _))

instance : DecidablePred LoadedTransaction.Fits := fun _ =>
  inferInstanceAs (Decidable (_ ∧ ∀ _ ∈ _, _))

def stored (v : Int) : Int := toInt (toLong v)

def LoadedOperation.stored (op : LoadedOperation) : LoadedOperation :=
  ⟨op.type, Bank.stored op.accountId, Bank.stored op.amountCentavos, Bank.stored op.targetAccount⟩

def LoadedTransaction.stored (tx : LoadedTransaction) : LoadedTransaction :=
  { tx with ops := tx.ops.map LoadedOperation.stored, startTick := Bank.stored tx.startTick }

theorem stored_eq_self_iff {v : Int} : stored v = v ↔ FitsInt v := by
  refine ⟨fun h => ?_, fun h => ?_⟩
  · rw [← h]
    exact toInt_fits _
  · rw [stored, toLong_of_fits h, toInt_of_fits h]

theorem LoadedOperation.stored_eq_self_iff {op : LoadedOperation} : op.stored = op ↔ op.Fits := by
  rw [LoadedOperation.Fits, ← Bank.stored_eq_self_iff, ← Bank.stored_eq_self_iff,
    ← Bank.stored_eq_self_iff]
  simp [LoadedOperation.ext_iff, LoadedOperation.stored]

theorem map_stored_eq_self_iff {ops : List LoadedOperation} :
    ops.map LoadedOperation.stored = ops ↔ ∀ op ∈ ops, op.Fits := by
  simp only [← LoadedOperation.stored_eq_self_iff]
  induction ops with
  | nil => simp
  | cons op ops ih => simp [ih]

theorem LoadedTransaction.stored_eq_self_iff {tx : LoadedTransaction} :
    tx.stored = tx ↔ tx.Fits := by
  rw [LoadedTransaction.Fits, ← Bank.stored_eq_self_iff, ← map_stored_eq_self_iff]
  simp [LoadedTransaction.ext_iff, LoadedTransaction.stored, and_comm]

section Labels

variable {label label' : List Char}

theorem IsLabel.atoi_eq (h : IsLabel label) : atoi (label.drop 1) = labelNumber label := by
  obtain ⟨hlabel, hlength⟩ := h
  have hdigits : label.drop 1 = Nat.toDigits 10 (labelNumber label) := by
    rw [hlabel]
    simp [labelNumber, digitsValue_toDigits]
  have hlt : labelNumber label < 10 ^ 8 := by
    refine (Nat.length_toDigits_le_iff (by decide) (by decide)).mp ?_
    rw [← hdigits, List.length_drop]
    omega
  have hfits : FitsInt (labelNumber label : Int) := by
    unfold FitsInt intMin intMax
    omega
  have hscan : scanInt (label.drop 1) = some ((labelNumber label : Int), []) := by
    rw [hdigits, scanInt_digits Nat.toDigits_ne_nil fun c hc =>
      Nat.isDigit_of_mem_toDigits (by decide) (by decide) hc, digitsValue_toDigits]
  rw [atoi, scanD, hscan]
  exact stored_eq_self_iff.mpr hfits

theorem IsLabel.inj (h : IsLabel label) (h' : IsLabel label')
    (hnumber : labelNumber label = labelNumber label') : label = label' := by
  rw [h.1, hnumber]
  exact h'.1.symm

end Labels

/-- The record has the fields of the data line, as the variables hold them. -/
structure TraceRecord.Holds (r : TraceRecord) (d : DataLine) : Prop where
  label : r.label = d.label
  tick : r.tick = stored d.tick
  operation : r.operation = d.operation.stored

section Records

variable {line : List Char} {d : DataLine}

theorem scanD_eq_map (text : List Char) :
    scanD text = (scanInt text).map fun r => (stored r.1, r.2) := rfl

theorem scanD_elim (text : List Char) :
    (scanD text).elim 0 Prod.fst = stored (firstNumber text) := by
  rw [scanD_eq_map, firstNumber]
  cases scanInt text with
  | none => rfl
  | some r => rfl

theorem getOpType_name (type : OpType) : getOpType type.name = type := by
  cases type <;> decide +kernel

theorem operation_eq_stored {label word rest : List Char} {tick account : Int} {type : OpType}
    (hword : getOpType word = type) :
    (⟨label, tick, word, stored account, rest⟩ : TraceRecord).operation =
      (operationOf type account rest).stored := by
  have hzero : stored 0 = 0 := stored_eq_self_iff.mpr (by decide)
  unfold TraceRecord.operation
  rw [hword]
  cases type with
  | deposit => simp [operationOf, LoadedOperation.stored, scanD_elim, hzero]
  | withdraw => simp [operationOf, LoadedOperation.stored, scanD_elim, hzero]
  | transfer =>
    cases hscan : scanInt rest with
    | none =>
      simp [operationOf, LoadedOperation.stored, scanD_eq_map, firstNumber, secondNumber, hscan,
        hzero]
    | some r =>
      have hamount := scanD_elim r.2
      simp [operationOf, LoadedOperation.stored, scanD_eq_map, firstNumber, secondNumber, hscan]
        at hamount ⊢
      exact hamount
  | balance => simp [operationOf, LoadedOperation.stored, hzero]

theorem dataOf_eq_some (h : dataOf line = some d) :
    IsLabel d.label ∧ ∃ rest tick rest' type rest'' account last,
      scanWord line = some (d.label, rest) ∧ scanInt rest = some (tick, rest') ∧
      scanWord rest' = some (OpType.name type, rest'') ∧ scanInt rest'' = some (account, last) ∧
      d.tick = tick ∧ d.operation = operationOf type account last := by
  unfold dataOf at h
  simp only [Option.bind_eq_bind, Option.bind_eq_some_iff, Prod.exists] at h
  obtain ⟨label, rest, hlabel, tick, rest', htick, name, rest'', hname, type, htype, account, last,
    haccount, h⟩ := h
  split_ifs at h with hIsLabel
  obtain rfl := Option.some.inj h
  obtain rfl : type.name = name := by simpa using List.find?_some htype
  exact ⟨hIsLabel, rest, tick, rest', type, rest'', account, last, hlabel, htick, hname, haccount,
    rfl, rfl⟩

theorem dataOf_isLabel (h : dataOf line = some d) : IsLabel d.label := (dataOf_eq_some h).1

theorem length_name_le (type : OpType) : type.name.length ≤ 19 := by
  cases type <;> decide +kernel

theorem scanRecord_of_dataOf (h : dataOf line = some d) :
    ∃ r, scanRecord line = .ok (some r) ∧ r.Holds d := by
  obtain ⟨hlabel, rest, tick, rest', type, rest'', account, last, hscan, htick, hname, haccount,
    hdtick, hdoperation⟩ := dataOf_eq_some h
  refine ⟨⟨d.label, stored tick, type.name, stored account, last⟩, ?_, rfl, ?_, ?_⟩
  · simp [scanRecord, hscan, not_lt.mpr hlabel.2, scanD_eq_map, htick, hname,
      not_lt.mpr (length_name_le type), haccount]
  · rw [hdtick]
  · rw [hdoperation]
    exact operation_eq_stored (getOpType_name type)

theorem takeLine_head_newline {room : Nat} {input : List Char}
    (h : ((takeLine room input).1.takeWhile (· ≠ '\x00')).head? = some '\n') :
    (takeLine room input).1.takeWhile (· ≠ '\x00') = ['\n'] := by
  cases room with
  | zero => cases h
  | succ room =>
    cases input with
    | nil => cases h
    | cons c cs =>
      rw [takeLine] at h ⊢
      split_ifs at h ⊢ with hc
      · rw [hc]
        rfl
      · rw [List.takeWhile_cons] at h
        split at h
        · exact absurd (Option.some.inj h) hc
        · cases h

theorem head_newline_of_mem_readLines {size fuel : Nat} {input : List Char}
    (h : line ∈ readLines size fuel input) (hhead : line.head? = some '\n') : line = ['\n'] := by
  induction fuel generalizing input with
  | zero => cases h
  | succ fuel ih =>
    cases input with
    | nil => cases h
    | cons c cs =>
      rcases List.mem_cons.mp h with rfl | h
      · exact takeLine_head_newline hhead
      · exact ih h

theorem scanWord_of_blank (h : line.all isSpace = true) : scanWord line = none := by
  have hdrop : line.dropWhile isSpace = [] :=
    List.dropWhile_eq_nil_iff.mpr fun c hc => List.all_eq_true.mp h c hc
  rw [scanWord, hdrop]
  rfl

theorem dataOf_of_blank (h : line.all isSpace = true) : dataOf line = none := by
  simp [dataOf, scanWord_of_blank h]

theorem dataOf_of_comment (h : line.head? = some '#') : dataOf line = none := by
  obtain ⟨rest, rfl⟩ := List.head?_eq_some_iff.mp h
  cases hdata : dataOf ('#' :: rest) with
  | none => rfl
  | some d =>
    obtain ⟨hlabel, _, _, _, _, _, _, _, hscan, _⟩ := dataOf_eq_some hdata
    rw [scanWord, List.dropWhile_cons_of_neg (by decide), List.span_eq_takeWhile_dropWhile,
      List.takeWhile_cons_of_pos (by decide)] at hscan
    have hhead := congrArg List.head? (Prod.mk.inj (Option.some.inj hscan)).1
    rw [hlabel.1] at hhead
    exact absurd hhead (by simp)

theorem lineRecord_of_none (h : line.head? = some '#' ∨ line.all isSpace = true) :
    lineRecord line = .ok none ∧ dataOf line = none := by
  rcases h with h | h
  · exact ⟨if_pos (.inl h), dataOf_of_comment h⟩
  · refine ⟨?_, dataOf_of_blank h⟩
    unfold lineRecord
    split_ifs
    · rfl
    · rw [scanRecord, scanWord_of_blank h]

theorem lineRecord_of_some {size fuel : Nat} {input : List Char}
    (hline : line ∈ readLines size fuel input) (h : dataOf line = some d) :
    ∃ r, lineRecord line = .ok (some r) ∧ r.Holds d := by
  have hskip : ¬ (line.head? = some '#' ∨ line.head? = some '\n') := by
    rintro (hhead | hhead)
    · simp [dataOf_of_comment hhead] at h
    · rw [head_newline_of_mem_readLines hline hhead, dataOf_of_blank (by decide)] at h
      cases h
  rw [lineRecord, if_neg hskip]
  exact scanRecord_of_dataOf h

end Records

def recordOf? (line : List Char) : Option TraceRecord :=
  match lineRecord line with
  | .ok r => r
  | .error _ => none

structure LoadedTable.Represents (table : LoadedTable) (data : List DataLine) : Prop where
  entries : ∀ i, table.entries i =
    (keys DataLine.label data)[i.val]?.elim .zero fun label => (labelTransaction data label).stored
  txCount : table.txCount = (keys DataLine.label data).length

section Lines

variable {table : LoadedTable} {data : List DataLine} {d : DataLine} {r : TraceRecord}

theorem labelTransaction_concat_self (hmem : d.label ∈ keys DataLine.label data) :
    (labelTransaction (data ++ [d]) d.label).stored =
      { (labelTransaction data d.label).stored with
        ops := (labelTransaction data d.label).stored.ops ++ [d.operation.stored] } := by
  obtain ⟨first, rest, hcons⟩ := List.exists_cons_of_ne_nil (members_ne_nil hmem)
  simp [labelTransaction, LoadedTransaction.stored, members_concat_self, hcons]

theorem labelTransaction_concat_of_ne {label : List Char} (hne : d.label ≠ label) :
    labelTransaction (data ++ [d]) label = labelTransaction data label := by
  simp only [labelTransaction, members_concat_of_ne hne]

theorem labelTransaction_new (hnew : d.label ∉ keys DataLine.label data) :
    (labelTransaction (data ++ [d]) d.label).stored =
      ⟨labelNumber d.label, [d.operation.stored], stored d.tick, .running⟩ := by
  simp [labelTransaction, LoadedTransaction.stored, members_concat_self, members_eq_nil hnew]

theorem LoadedTable.Represents.label_of_txId (h : table.Represents data)
    (hlabels : ∀ d' ∈ data, IsLabel d'.label) (hd : IsLabel d.label)
    (hnonzero : labelNumber d.label ≠ 0) {i : Fin maxTransactions}
    (hi : (table.entries i).txId = labelNumber d.label) :
    (keys DataLine.label data)[i.val]? = some d.label := by
  rw [h.entries i] at hi
  cases hkey : (keys DataLine.label data)[i.val]? with
  | none =>
    rw [hkey] at hi
    exact absurd (Int.ofNat_inj.mp hi).symm hnonzero
  | some label =>
    rw [hkey] at hi
    obtain ⟨d', hd', rfl⟩ := mem_keys.mp (List.mem_of_getElem? hkey)
    rw [(hlabels d' hd').inj hd (Int.ofNat_inj.mp hi)]

theorem LoadedTable.find_eq_some {id : Int} {i : Fin maxTransactions}
    (hi : (table.entries i).txId = id) (hunique : ∀ j, (table.entries j).txId = id → j = i) :
    table.find id = some i := by
  unfold find
  cases hfind : (List.finRange maxTransactions).find? fun j => (table.entries j).txId = id with
  | none => exact absurd hi (by simpa using List.find?_eq_none.mp hfind i (List.mem_finRange i))
  | some j => rw [hunique j (by simpa using List.find?_some hfind)]

theorem LoadedTable.find_eq_none {id : Int} :
    table.find id = none ↔ ∀ i, (table.entries i).txId ≠ id := by
  simp [find, List.find?_eq_none]

theorem LoadedTable.Represents.addKnown (h : table.Represents data) (hr : r.Holds d)
    (hlabels : ∀ d' ∈ data, IsLabel d'.label) (hd : IsLabel d.label)
    (hnonzero : labelNumber d.label ≠ 0)
    (hsize : (keys DataLine.label data).length ≤ maxTransactions)
    (hfew : (members DataLine.label d.label (data ++ [d])).length ≤ maxOperations)
    (hmem : d.label ∈ keys DataLine.label data) :
    ∃ table', table.addRecord r = .ok table' ∧ table'.Represents (data ++ [d]) := by
  obtain ⟨i, hlt, hi⟩ := List.getElem_of_mem hmem
  have hkey : (keys DataLine.label data)[i]? = some d.label :=
    List.getElem?_eq_some_iff.mpr ⟨hlt, hi⟩
  have hentry : table.entries ⟨i, hlt.trans_le hsize⟩ = (labelTransaction data d.label).stored := by
    rw [h.entries, hkey]
    rfl
  have hfind : table.find (atoi (r.label.drop 1)) = some ⟨i, hlt.trans_le hsize⟩ := by
    rw [hr.label, hd.atoi_eq]
    refine LoadedTable.find_eq_some (by rw [hentry]; rfl) fun j hj => Fin.ext ?_
    exact keys_getElem?_inj (h.label_of_txId hlabels hd hnonzero hj) hkey
  have hroom : (labelTransaction data d.label).stored.ops.length < maxOperations := by
    rw [members_concat_self, List.length_append, List.length_singleton] at hfew
    simpa [labelTransaction, LoadedTransaction.stored] using hfew
  have hadd : table.addRecord r = table.addOperation ⟨i, hlt.trans_le hsize⟩ d.operation.stored := by
    simp only [addRecord, hfind, hr.operation]
  rw [hadd, addOperation, hentry, if_pos hroom]
  refine ⟨_, rfl, fun j => ?_, ?_⟩
  · rw [keys_concat_of_mem hmem]
    rcases eq_or_ne j ⟨i, hlt.trans_le hsize⟩ with rfl | hj
    · dsimp only
      rw [Function.update_self, hkey, Option.elim_some, labelTransaction_concat_self hmem]
    · dsimp only
      rw [Function.update_of_ne hj, h.entries j]
      cases hother : (keys DataLine.label data)[j.val]? with
      | none => rfl
      | some label =>
        -- another place among the labels is another label
        have hne : d.label ≠ label := by
          rintro rfl
          exact hj (Fin.ext (keys_getElem?_inj hother hkey))
        rw [Option.elim_some, Option.elim_some, labelTransaction_concat_of_ne hne]
  · rw [keys_concat_of_mem hmem]
    exact h.txCount

theorem LoadedTable.Represents.addNew (h : table.Represents data) (hr : r.Holds d)
    (hlabels : ∀ d' ∈ data, IsLabel d'.label) (hd : IsLabel d.label)
    (hnonzero : labelNumber d.label ≠ 0) (hroom : table.txCount < maxTransactions - 1)
    (hnew : d.label ∉ keys DataLine.label data) :
    ∃ table', table.addRecord r = .ok table' ∧ table'.Represents (data ++ [d]) := by
  have hnone : (keys DataLine.label data)[table.txCount]? = none :=
    List.getElem?_eq_none h.txCount.ge
  have hentry : table.entries ⟨table.txCount, table.txCount_lt⟩ = .zero := by
    rw [h.entries, hnone]
    rfl
  have hfind : table.find (labelNumber d.label) = none :=
    LoadedTable.find_eq_none.mpr fun i hi =>
      hnew (List.mem_of_getElem? (h.label_of_txId hlabels hd hnonzero hi))
  have hadd : table.addRecord r =
      (table.create (labelNumber d.label) (stored d.tick) hroom).addOperation
        ⟨table.txCount, table.txCount_lt⟩ d.operation.stored := by
    simp only [addRecord, hr.label, hd.atoi_eq, hfind, dif_pos hroom, hr.tick, hr.operation]
  rw [hadd, create, addOperation]
  simp only [Function.update_self, hentry]
  refine ⟨_, rfl, fun j => ?_, ?_⟩
  · rw [keys_concat_of_notMem hnew]
    dsimp only
    rw [Function.update_idem]
    rcases eq_or_ne j ⟨table.txCount, table.txCount_lt⟩ with rfl | hj
    · have hkey : (keys DataLine.label data ++ [d.label])[table.txCount]? = some d.label := by
        rw [h.txCount, List.getElem?_concat_length]
      rw [Function.update_self]
      dsimp only
      rw [hkey, Option.elim_some, labelTransaction_new hnew]
      rfl
    · have hne : j.val ≠ (keys DataLine.label data).length := fun heq =>
        hj (Fin.ext (heq.trans h.txCount.symm))
      rw [Function.update_of_ne hj, h.entries j]
      rcases lt_or_gt_of_ne hne with hlt | hgt
      · rw [List.getElem?_append_left hlt, List.getElem?_eq_getElem hlt, Option.elim_some,
          Option.elim_some, labelTransaction_concat_of_ne]
        exact fun heq => hnew (heq ▸ List.getElem_mem hlt)
      · rw [List.getElem?_eq_none hgt.le, List.getElem?_eq_none (by simpa using hgt)]
        rfl
  · rw [keys_concat_of_notMem hnew, List.length_append, List.length_singleton]
    exact congrArg (· + 1) h.txCount

end Lines

section Whole

variable {table : LoadedTable} {lines : List (List Char)} {data : List DataLine} {file : List Char}

theorem traceData_concat_none {line : List Char} (h : dataOf line = none) :
    traceData (lines ++ [line]) = traceData lines := by
  simp [traceData, h]

theorem traceData_concat_some {line : List Char} {d : DataLine} (h : dataOf line = some d) :
    traceData (lines ++ [line]) = traceData lines ++ [d] := by
  simp [traceData, h]

theorem traceData_isLabel {d : DataLine} (hd : d ∈ traceData lines) : IsLabel d.label := by
  obtain ⟨_, _, hdata⟩ := List.mem_filterMap.mp hd
  exact dataOf_isLabel hdata

theorem WellFormedTrace.of_append {before after : List (List Char)}
    (h : WellFormedTrace (before ++ after)) : WellFormedTrace before := by
  have hdata : traceData (before ++ after) = traceData before ++ traceData after :=
    List.filterMap_append
  have hlabels := h.labels
  rw [hdata] at hlabels
  refine ⟨fun line hline => h.read line (List.mem_append_left _ hline), ?_, fun label => ?_⟩
  · exact (length_keys_le _ _).trans_lt hlabels
  · have hoperations := h.operations label
    rw [hdata] at hoperations
    exact (length_members_le _ _).trans hoperations

theorem LoadedTable.Represents.loadLine {before : List (List Char)} {line : List Char}
    (h : table.Represents (traceData before)) (hwf : WellFormedTrace (before ++ [line]))
    (hline : line ∈ traceLines file)
    (hnonzero : ∀ d ∈ traceData (before ++ [line]), labelNumber d.label ≠ 0) :
    ∃ table', table.loadLine line = .ok table' ∧
      table'.Represents (traceData (before ++ [line])) := by
  have hbefore := hwf.of_append
  rcases or_assoc.mpr (hwf.read line (List.mem_append_right _ (List.mem_singleton_self _))) with
    hskip | hdata
  · obtain ⟨hnone, hdata⟩ := lineRecord_of_none hskip
    rw [traceData_concat_none hdata]
    exact ⟨table, by simp [LoadedTable.loadLine, hnone, bind, Except.bind], h⟩
  · obtain ⟨d, hdata⟩ := Option.isSome_iff_exists.mp hdata
    obtain ⟨r, hsome, hr⟩ := lineRecord_of_some hline hdata
    have hadd : table.loadLine line = table.addRecord r := by
      simp [LoadedTable.loadLine, hsome, bind, Except.bind]
    have hoperations := hwf.operations d.label
    have hzero : labelNumber d.label ≠ 0 := hnonzero d (by simp [traceData_concat_some hdata])
    rw [traceData_concat_some hdata] at hoperations ⊢
    rw [hadd]
    have hlabels : ∀ d' ∈ traceData before, IsLabel d'.label := fun _ => traceData_isLabel
    by_cases hmem : d.label ∈ keys DataLine.label (traceData before)
    · refine h.addKnown hr hlabels (dataOf_isLabel hdata) hzero ?_ hoperations hmem
      exact hbefore.labels.le.trans (Nat.sub_le _ _)
    · exact h.addNew hr hlabels (dataOf_isLabel hdata) hzero
        (h.txCount.trans_lt hbefore.labels) hmem

theorem LoadedTable.Represents.loadLines {before : List (List Char)}
    (h : table.Represents (traceData before)) (hwf : WellFormedTrace (before ++ lines))
    (hlines : ∀ line ∈ lines, line ∈ traceLines file)
    (hnonzero : ∀ d ∈ traceData (before ++ lines), labelNumber d.label ≠ 0) :
    ∃ table', table.loadLines lines = .ok table' ∧
      table'.Represents (traceData (before ++ lines)) := by
  induction lines generalizing before table with
  | nil => exact ⟨table, rfl, by rwa [List.append_nil]⟩
  | cons line lines ih =>
    have hroom : table.txCount < maxTransactions - 1 := h.txCount.trans_lt hwf.of_append.labels
    rw [List.append_cons] at hwf hnonzero ⊢
    have hfirst := hlines line List.mem_cons_self
    obtain ⟨table₁, hline, h₁⟩ := h.loadLine hwf.of_append hfirst fun d hd => hnonzero d (by
      rw [traceData, List.filterMap_append]
      exact List.mem_append_left _ hd)
    obtain ⟨table₂, hrest, h₂⟩ :=
      ih h₁ hwf (fun line' hline' => hlines line' (List.mem_cons_of_mem _ hline')) hnonzero
    refine ⟨table₂, ?_, h₂⟩
    simp only [LoadedTable.loadLines, if_pos hroom, hline, bind, Except.bind, hrest]

theorem takeWhile_map_finRange {α : Type*} {N : Nat} {f : Fin N → α} {p : α → Bool} {l : List α}
    (hlt : l.length < N) (hf : ∀ (i : Nat) (hi : i < l.length), f ⟨i, hi.trans hlt⟩ = l[i])
    (hp : ∀ a ∈ l, p a = true) (hend : p (f ⟨l.length, hlt⟩) = false) :
    ((List.finRange N).map f).takeWhile p = l := by
  have hlength : l.length < ((List.finRange N).map f).length := by simpa using hlt
  have htake : ((List.finRange N).map f).take l.length = l := by
    refine List.ext_getElem (by simp [hlt.le]) fun i hi _ => ?_
    have hil : i < l.length := by simpa [hlt.le] using hi
    simpa using hf i hil
  rw [← List.take_append_drop l.length ((List.finRange N).map f), htake,
    List.drop_eq_getElem_cons hlength, List.takeWhile_append_of_pos hp,
    List.takeWhile_cons_of_neg (by simpa using hend), List.append_nil]

theorem LoadedTable.Represents.finish (h : table.Represents data) :
    table.finish.transactions = (labelTransactions data).map LoadedTransaction.stored ∧
      ∃ h : table.finish.transactions.length < maxTransactions,
        (table.finish.entries ⟨table.finish.transactions.length, h⟩).txId = transactionEnd := by
  have hcount : ((labelTransactions data).map LoadedTransaction.stored).length = table.txCount := by
    rw [labelTransactions, List.length_map, List.length_map, h.txCount]
  have hmarker : (table.finish.entries ⟨table.txCount, table.txCount_lt⟩).txId = transactionEnd := by
    simp [LoadedTable.finish]
  have heq : table.finish.transactions =
      (labelTransactions data).map LoadedTransaction.stored := by
    refine takeWhile_map_finRange (hcount.trans_lt table.txCount_lt) (fun i hi => ?_)
      (fun tx htx => ?_) ?_
    · have hlt : i < maxTransactions := (hi.trans_eq hcount).trans table.txCount_lt
      have hne : (⟨i, hlt⟩ : Fin maxTransactions) ≠ ⟨table.txCount, table.txCount_lt⟩ := fun heq =>
        (hi.trans_eq hcount).ne (Fin.mk.inj heq)
      have hkeys : i < (keys DataLine.label data).length := by
        rwa [hcount, h.txCount] at hi
      simp only [LoadedTable.finish, Function.update_of_ne hne, h.entries, labelTransactions,
        List.getElem_map, List.getElem?_eq_getElem hkeys, Option.elim_some]
    · obtain ⟨_, hlabel, rfl⟩ := List.mem_map.mp htx
      obtain ⟨label, _, rfl⟩ := List.mem_map.mp hlabel
      refine decide_eq_true fun hend => ?_
      have hnumber : (labelNumber label : Int) = -1 := hend
      omega
    · simp only [hcount, hmarker]
      rfl
  refine ⟨heq, ?_⟩
  rw [heq, hcount]
  exact ⟨table.txCount_lt, hmarker⟩

end Whole

structure LoadedTable.ZeroUnused (table : LoadedTable) : Prop where
  used : ∀ i, i.val < table.txCount → (table.entries i).txId ≠ 0
  unused : ∀ i, table.txCount ≤ i.val → (table.entries i).txId = 0

section Zero

variable {table table' : LoadedTable} {lines : List (List Char)}

theorem LoadedTable.ZeroUnused.addOperation (h : table.ZeroUnused) {i : Fin maxTransactions}
    {op : LoadedOperation} (hadd : table.addOperation i op = .ok table') : table'.ZeroUnused := by
  unfold LoadedTable.addOperation at hadd
  split_ifs at hadd
  obtain rfl := Except.ok.inj hadd
  have htxId : ∀ j, (Function.update table.entries i
      { table.entries i with ops := (table.entries i).ops ++ [op] } j).txId =
      (table.entries j).txId := by
    intro j
    rcases eq_or_ne j i with rfl | hj
    · rw [Function.update_self]
    · rw [Function.update_of_ne hj]
  exact ⟨fun j hj => (htxId j).symm ▸ h.used j hj, fun j hj => (htxId j).trans (h.unused j hj)⟩

theorem LoadedTable.ZeroUnused.create (h : table.ZeroUnused) {id tick : Int} (hid : id ≠ 0)
    (hroom : table.txCount < maxTransactions - 1) : (table.create id tick hroom).ZeroUnused := by
  refine ⟨fun j hj => ?_, fun j hj => ?_⟩
  · rcases eq_or_ne j ⟨table.txCount, table.txCount_lt⟩ with rfl | hne
    · simpa [LoadedTable.create] using hid
    · have hlt : j.val < table.txCount :=
        lt_of_le_of_ne (Nat.le_of_lt_succ hj) fun heq => hne (Fin.ext heq)
      simpa [LoadedTable.create, hne] using h.used j hlt
  · have hne : j ≠ ⟨table.txCount, table.txCount_lt⟩ := by
      rintro rfl
      exact absurd hj (Nat.not_succ_le_self _)
    simpa [LoadedTable.create, hne] using h.unused j ((Nat.le_succ _).trans hj)

theorem LoadedTable.ZeroUnused.addRecord (h : table.ZeroUnused) {r : TraceRecord}
    (hadd : table.addRecord r = .ok table') : table'.ZeroUnused := by
  unfold LoadedTable.addRecord at hadd
  dsimp only at hadd
  split at hadd
  · exact h.addOperation hadd
  · rename_i hnone
    split_ifs at hadd with hroom
    have hid : atoi (r.label.drop 1) ≠ 0 := by
      have hother := LoadedTable.find_eq_none.mp hnone ⟨table.txCount, table.txCount_lt⟩
      rw [h.unused _ le_rfl] at hother
      exact hother.symm
    exact (h.create hid hroom).addOperation hadd

theorem LoadedTable.ZeroUnused.loadLine (h : table.ZeroUnused) {line : List Char}
    (hload : table.loadLine line = .ok table') : table'.ZeroUnused := by
  cases hrecord : lineRecord line with
  | error e => simp [LoadedTable.loadLine, hrecord, bind, Except.bind] at hload
  | ok record =>
    cases record with
    | none =>
      obtain rfl : table = table' := by
        simpa [LoadedTable.loadLine, hrecord, bind, Except.bind] using hload
      exact h
    | some r =>
      have hadd : table.addRecord r = .ok table' := by
        simpa [LoadedTable.loadLine, hrecord, bind, Except.bind] using hload
      exact h.addRecord hadd

theorem LoadedTable.ZeroUnused.loadLines (h : table.ZeroUnused)
    (hload : table.loadLines lines = .ok table') : table'.ZeroUnused := by
  induction lines generalizing table with
  | nil => exact Except.ok.inj hload ▸ h
  | cons line lines ih =>
    rw [LoadedTable.loadLines] at hload
    split_ifs at hload with hroom
    · cases hline : table.loadLine line with
      | error e => simp [hline, bind, Except.bind] at hload
      | ok table₁ =>
        rw [hline] at hload
        exact ih (h.loadLine hline) hload
    · exact Except.ok.inj hload ▸ h

end Zero

end OsLab.Bank
