import OsLab.Bank.TraceGroups

/-! Which lines of a trace become operations. `load_transactions` checks neither the word nor the
numbers of a line with four fields: an unknown word is a balance, a missing amount is 0, and an id
can be anything. -/

namespace OsLab.Bank

open CText

def TraceRecord.Valid (r : TraceRecord) : Prop :=
  InRange r.accountId ∧
    ((r.word = depositWord ∨ r.word = withdrawWord) ∧ (∃ amount ∈ scanD r.rest, 0 ≤ amount.1) ∨
      r.word = transferWord ∧
        (∃ target ∈ scanD r.rest, InRange target.1 ∧ ∃ amount ∈ scanD target.2, 0 ≤ amount.1) ∨
      r.word = balanceWord)

def LoadedOperation.Valid (op : LoadedOperation) : Prop :=
  InRange op.accountId ∧ (op.type = .transfer → InRange op.targetAccount) ∧ 0 ≤ op.amountCentavos

instance (r : TraceRecord) : Decidable r.Valid :=
  inferInstanceAs (Decidable (_ ∧ (_ ∧ (∃ _ ∈ _, _) ∨ _ ∧ (∃ _ ∈ _, _ ∧ ∃ _ ∈ _, _) ∨ _)))

instance (op : LoadedOperation) : Decidable op.Valid := inferInstanceAs (Decidable (_ ∧ (_ → _) ∧ _))

theorem TraceRecord.Valid.operation {r : TraceRecord} (h : r.Valid) : r.operation.Valid := by
  obtain ⟨haccount, ⟨hword, amount, hamount, hle⟩ | ⟨hword, target, htarget, hrange, amount, hamount, hle⟩ |
    hword⟩ := h
  · have hscan : scanD r.rest = some amount := hamount
    rcases hword with hword | hword
    · have htype : getOpType r.word = .deposit := by rw [hword]; decide +kernel
      simp only [TraceRecord.operation, htype, hscan]
      exact ⟨haccount, fun h => absurd h (by simp), hle⟩
    · have htype : getOpType r.word = .withdraw := by rw [hword]; decide +kernel
      simp only [TraceRecord.operation, htype, hscan]
      exact ⟨haccount, fun h => absurd h (by simp), hle⟩
  · have hscan : scanD r.rest = some target := htarget
    have hscan' : scanD target.2 = some amount := hamount
    have htype : getOpType r.word = .transfer := by rw [hword]; decide +kernel
    simp only [TraceRecord.operation, htype, hscan, hscan']
    exact ⟨haccount, fun _ => hrange, hle⟩
  · have htype : getOpType r.word = .balance := by rw [hword]; decide +kernel
    simp only [TraceRecord.operation, htype]
    exact ⟨haccount, fun h => absurd h (by simp), le_rfl⟩

theorem accountId?_isSome {id : Int} (h : InRange id) : (accountId? id).isSome := by
  simp [accountId?, h]

theorem LoadedOperation.Valid.operation? {op : LoadedOperation} (h : op.Valid) :
    op.operation?.isSome := by
  obtain ⟨account, haccount⟩ := Option.isSome_iff_exists.mp (accountId?_isSome h.1)
  by_cases htype : op.type = .transfer
  · obtain ⟨target, htarget⟩ := Option.isSome_iff_exists.mp (accountId?_isSome (h.2.1 htype))
    simp [LoadedOperation.operation?, haccount, htype, htarget]
  · simp [LoadedOperation.operation?, haccount, htype]

theorem exists_mapM {α β : Type} {f : α → Option β} {l : List α}
    (h : ∀ a ∈ l, (f a).isSome) : ∃ bs, l.mapM f = some bs := by
  induction l with
  | nil => exact ⟨[], rfl⟩
  | cons a l ih =>
    obtain ⟨b, hb⟩ := Option.isSome_iff_exists.mp (h a List.mem_cons_self)
    obtain ⟨bs, hbs⟩ := ih fun a ha => h a (List.mem_cons_of_mem _ ha)
    exact ⟨b :: bs, by simp [hb, hbs]⟩

namespace LoadedTable

def slot (table : LoadedTable) (r : TraceRecord) : Fin maxTransactions :=
  (table.find (atoi (r.label.drop 1))).getD ⟨table.txCount, table.txCount_lt⟩

def HasRoom (table : LoadedTable) (r : TraceRecord) : Prop :=
  (table.entries (table.slot r)).ops.length < maxOperations

instance (table : LoadedTable) (r : TraceRecord) : Decidable (table.HasRoom r) :=
  inferInstanceAs (Decidable (_ < _))

section Lines

variable {table table' : LoadedTable} {r : TraceRecord} {line : List Char}

theorem addOperation_of_lt {i : Fin maxTransactions} {op : LoadedOperation}
    (h : (table.entries i).ops.length < maxOperations) :
    ∃ table', table.addOperation i op = .ok table' ∧ (table'.entries i).ops =
      (table.entries i).ops ++ [op] ∧ ∀ j, j ≠ i → (table'.entries j).ops = (table.entries j).ops := by
  refine ⟨_, if_pos h, ?_, fun j hj => ?_⟩
  · dsimp only
    rw [Function.update_self]
  · dsimp only
    rw [Function.update_of_ne hj]

theorem create_ops {id tick : Int} (h : table.txCount < maxTransactions - 1)
    (i : Fin maxTransactions) : ((table.create id tick h).entries i).ops = (table.entries i).ops := by
  unfold create
  dsimp only
  rcases eq_or_ne i ⟨table.txCount, table.txCount_lt⟩ with rfl | hi
  · rw [Function.update_self]
  · rw [Function.update_of_ne hi]

theorem addRecord_cases (hcount : table.txCount < maxTransactions - 1) (r : TraceRecord) :
    (table.HasRoom r ∧ ∃ table', table.addRecord r = .ok table' ∧
      (table'.entries (table.slot r)).ops = (table.entries (table.slot r)).ops ++ [r.operation] ∧
      ∀ j, j ≠ table.slot r → (table'.entries j).ops = (table.entries j).ops) ∨
    ¬ table.HasRoom r ∧ table.addRecord r = .error .opsFull := by
  unfold HasRoom
  cases hfind : table.find (atoi (r.label.drop 1)) with
  | some i =>
    have hslot : table.slot r = i := by rw [slot, hfind]; rfl
    have hadd : table.addRecord r = table.addOperation i r.operation := by
      simp only [addRecord, hfind]
    rw [hslot, hadd]
    by_cases hroom : (table.entries i).ops.length < maxOperations
    · exact .inl ⟨hroom, addOperation_of_lt hroom⟩
    · exact .inr ⟨hroom, if_neg hroom⟩
  | none =>
    have hslot : table.slot r = ⟨table.txCount, table.txCount_lt⟩ := by rw [slot, hfind]; rfl
    have hadd : table.addRecord r = (table.create (atoi (r.label.drop 1)) r.tick hcount).addOperation
        ⟨table.txCount, table.txCount_lt⟩ r.operation := by
      simp only [addRecord, hfind, dif_pos hcount]
    rw [hslot, hadd]
    by_cases hroom : (table.entries ⟨table.txCount, table.txCount_lt⟩).ops.length < maxOperations
    · refine .inl ⟨hroom, ?_⟩
      rw [← create_ops hcount] at hroom
      obtain ⟨table', hadd, hself, hothers⟩ := addOperation_of_lt hroom
      exact ⟨table', hadd, by rw [hself, create_ops], fun j hj => by rw [hothers j hj, create_ops]⟩
    · refine .inr ⟨hroom, if_neg ?_⟩
      rwa [create_ops hcount]

theorem loadLine_of_none (h : lineRecord line = .ok none) : table.loadLine line = .ok table := by
  simp [loadLine, h, bind, Except.bind]

theorem loadLine_of_some (h : lineRecord line = .ok (some r)) :
    table.loadLine line = table.addRecord r := by
  simp [loadLine, h, bind, Except.bind]

theorem loadLine_of_error {fault : LoadFault} (h : lineRecord line = .error fault) :
    table.loadLine line = .error fault := by
  simp [loadLine, h, bind, Except.bind]

end Lines

def LineValid (table : LoadedTable) (line : List Char) : Prop :=
  lineRecord line = .ok none ∨
    ∃ r, lineRecord line = .ok (some r) ∧ r.Valid ∧ table.HasRoom r

def OpsValid (table : LoadedTable) : Prop := ∀ i, ∀ op ∈ (table.entries i).ops, op.Valid

theorem zero_opsValid : LoadedTable.zero.OpsValid := fun _ _ hop => absurd hop List.not_mem_nil

theorem OpsValid.loadLine {table : LoadedTable} {line : List Char} (h : table.OpsValid)
    (hcount : table.txCount < maxTransactions - 1) (hline : table.LineValid line) :
    ∃ table', table.loadLine line = .ok table' ∧ table'.OpsValid := by
  rcases hline with hnone | ⟨r, hsome, hvalid, hroom⟩
  · exact ⟨table, loadLine_of_none hnone, h⟩
  · rw [loadLine_of_some hsome]
    rcases addRecord_cases hcount r with ⟨_, table', hadd, hself, hothers⟩ | ⟨hfull, _⟩
    · refine ⟨table', hadd, fun i op hop => ?_⟩
      rcases eq_or_ne i (table.slot r) with rfl | hi
      · rw [hself] at hop
        rcases List.mem_append.mp hop with hold | hnew
        · exact h _ op hold
        · exact List.mem_singleton.mp hnew ▸ hvalid.operation
      · rw [hothers i hi] at hop
        exact h i op hop
    · exact absurd hroom hfull

end LoadedTable

def ReadAt (lines : List (List Char)) (table : LoadedTable) (line : List Char) : Prop :=
  ∃ before after, lines = before ++ line :: after ∧
    LoadedTable.zero.loadLines before = .ok table ∧ table.txCount < maxTransactions - 1

/-- The trace is loaded without a write beyond an array, all operations in the table are valid, and
a line that is not adds none. -/
def OnlyValid (file : List Char) : Prop :=
  (∃ table, loadTransactions (some file) = .ok table ∧ table.OpsValid) ∧
    ∀ table line, ReadAt (traceLines file) table line → (∀ r ∈ recordOf? line, ¬ r.Valid) →
      ∃ table', table.loadLine line = .ok table' ∧
        ∀ i, (table'.entries i).ops = (table.entries i).ops

section Whole

variable {table table' : LoadedTable} {lines : List (List Char)} {file : List Char}

theorem loadLines_append (table : LoadedTable) (lines lines' : List (List Char)) :
    table.loadLines (lines ++ lines') =
      (table.loadLines lines).bind fun table' => table'.loadLines lines' := by
  induction lines generalizing table with
  | nil => rfl
  | cons line lines ih =>
    rw [List.cons_append, LoadedTable.loadLines, LoadedTable.loadLines]
    by_cases hcount : table.txCount < maxTransactions - 1
    · rw [if_pos hcount, if_pos hcount]
      cases table.loadLine line with
      | error fault => rfl
      | ok table' => exact ih table'
    · -- a table that is full stays as it is
      rw [if_neg hcount, if_neg hcount]
      cases lines' with
      | nil => rfl
      | cons line' lines' => exact (if_neg hcount).symm

theorem LoadedTable.OpsValid.loadLines {before : List (List Char)} (h : table.OpsValid)
    (hbefore : LoadedTable.zero.loadLines before = .ok table)
    (hvalid : ∀ table line, ReadAt (before ++ lines) table line → table.LineValid line) :
    ∃ table', table.loadLines lines = .ok table' ∧ table'.OpsValid := by
  induction lines generalizing before table with
  | nil => exact ⟨table, rfl, h⟩
  | cons line lines ih =>
    rw [LoadedTable.loadLines]
    by_cases hcount : table.txCount < maxTransactions - 1
    · have hread : ReadAt (before ++ line :: lines) table line :=
        ⟨before, lines, rfl, hbefore, hcount⟩
      obtain ⟨table₁, hline, h₁⟩ := h.loadLine hcount (hvalid table line hread)
      have hnext : LoadedTable.zero.loadLines (before ++ [line]) = .ok table₁ := by
        rw [loadLines_append, hbefore]
        show table.loadLines [line] = .ok table₁
        rw [LoadedTable.loadLines, if_pos hcount, hline]
        rfl
      rw [List.append_cons] at hvalid
      obtain ⟨table₂, hrest, h₂⟩ := ih h₁ hnext hvalid
      refine ⟨table₂, ?_, h₂⟩
      rw [if_pos hcount, hline]
      exact hrest
    · rw [if_neg hcount]
      exact ⟨table, rfl, h⟩

theorem LoadedTable.OpsValid.finish (h : table.OpsValid) : table.finish.OpsValid := by
  intro i op hop
  refine h i op ?_
  rcases eq_or_ne i ⟨table.txCount, table.txCount_lt⟩ with rfl | hi
  · simpa [LoadedTable.finish] using hop
  · simpa [LoadedTable.finish, hi] using hop

theorem ReadAt.loadLine {line : List Char} (h : ReadAt lines table line)
    (hload : LoadedTable.zero.loadLines lines = .ok table') :
    ∃ table₁, table.loadLine line = .ok table₁ := by
  obtain ⟨before, after, rfl, hbefore, hcount⟩ := h
  rw [loadLines_append, hbefore] at hload
  have hrest : table.loadLines (line :: after) = .ok table' := hload
  rw [LoadedTable.loadLines, if_pos hcount] at hrest
  cases hline : table.loadLine line with
  | error fault => simp [hline, bind, Except.bind] at hrest
  | ok table₁ => exact ⟨table₁, rfl⟩

theorem ReadAt.lineValid {line : List Char} (h : ReadAt (traceLines file) table line)
    (hvalid : OnlyValid file) : table.LineValid line := by
  obtain ⟨⟨loaded, hload, _⟩, hadds⟩ := hvalid
  have hlines : ∃ table', LoadedTable.zero.loadLines (traceLines file) = .ok table' := by
    cases hlines : LoadedTable.zero.loadLines (traceLines file) with
    | error fault => simp [loadTransactions, hlines, Except.map] at hload
    | ok table' => exact ⟨table', rfl⟩
  obtain ⟨table₁, hline⟩ := h.loadLine hlines.choose_spec
  have hcount : table.txCount < maxTransactions - 1 := h.choose_spec.choose_spec.2.2
  cases hrecord : lineRecord line with
  | error fault => simp [LoadedTable.loadLine_of_error hrecord] at hline
  | ok record =>
    cases record with
    | none => exact .inl hrecord
    | some r =>
      rw [LoadedTable.loadLine_of_some hrecord] at hline
      rcases LoadedTable.addRecord_cases hcount r with ⟨hroom, table₂, hadd, hself, _⟩ | ⟨_, herror⟩
      · refine .inr ⟨r, hrecord, ?_, hroom⟩
        by_contra hinvalid
        -- the line would have to add nothing, but its entry has grown
        have hnone : ∀ r' ∈ recordOf? line, ¬ r'.Valid := by
          intro r' hr'
          obtain rfl : r = r' := by simpa [recordOf?, hrecord] using hr'
          exact hinvalid
        obtain ⟨table₃, hsame, hops⟩ := hadds table line h hnone
        rw [LoadedTable.loadLine_of_some hrecord, hadd] at hsame
        obtain rfl := Except.ok.inj hsame
        have hgrown := hself.symm.trans (hops (table.slot r))
        simp at hgrown
      · rw [herror] at hline
        exact absurd hline (by simp)

/-- Only valid operations get into the table if and only if every line with four fields is valid. -/
theorem onlyValid_iff (file : List Char) :
    OnlyValid file ↔
      ∀ table line, ReadAt (traceLines file) table line → table.LineValid line := by
  refine ⟨fun hvalid table line hread => hread.lineValid hvalid, fun hlines => ⟨?_, ?_⟩⟩
  · have hload : ∃ table, LoadedTable.zero.loadLines (traceLines file) = .ok table ∧ table.OpsValid :=
      LoadedTable.zero_opsValid.loadLines (rfl : LoadedTable.zero.loadLines [] = _) hlines
    obtain ⟨table, hload, hops⟩ := hload
    refine ⟨table.finish, ?_, hops.finish⟩
    rw [loadTransactions, hload]
    rfl
  · intro table line hread hnone
    rcases hlines table line hread with hempty | ⟨r, hsome, hvalid, _⟩
    · exact ⟨table, LoadedTable.loadLine_of_none hempty, fun _ => rfl⟩
    · exact absurd hvalid (hnone r (by simp [recordOf?, hsome]))

theorem OnlyValid.transactions (h : OnlyValid file) :
    ∃ table txs, loadTransactions (some file) = .ok table ∧
      table.transactions.mapM LoadedTransaction.transaction? = some txs := by
  obtain ⟨⟨table, hload, hops⟩, _⟩ := h
  have hsome : ∀ tx ∈ table.transactions, tx.transaction?.isSome := by
    intro tx htx
    obtain ⟨i, _, rfl⟩ := List.mem_map.mp ((List.takeWhile_sublist _).subset htx)
    obtain ⟨ops, hmap⟩ := exists_mapM fun op hop => (hops i op hop).operation?
    simp [LoadedTransaction.transaction?, hmap]
  obtain ⟨txs, htxs⟩ := exists_mapM hsome
  exact ⟨table, txs, hload, htxs⟩

end Whole

def foreignAccount : List Char := "T1 0 DEPOSIT 500 100\n".toList

theorem foreignAccount_not_onlyValid :
    (loadTransactions (some foreignAccount)).map LoadedTable.transactions =
      .ok [⟨1, [⟨.deposit, 500, 100, 0⟩], 0, .running⟩] ∧ ¬ OnlyValid foreignAccount := by
  have hload : (loadTransactions (some foreignAccount)).map LoadedTable.transactions =
      .ok [⟨1, [⟨.deposit, 500, 100, 0⟩], 0, .running⟩] := by decide +kernel
  refine ⟨hload, ?_⟩
  rintro ⟨⟨table, htable, hops⟩, _⟩
  rw [htable] at hload
  have htx : (⟨1, [⟨.deposit, 500, 100, 0⟩], 0, .running⟩ : LoadedTransaction) ∈
      table.transactions := by
    rw [Except.ok.inj hload]
    exact List.mem_singleton_self _
  obtain ⟨i, _, hi⟩ := List.mem_map.mp ((List.takeWhile_sublist _).subset htx)
  have hvalid := hops i ⟨.deposit, 500, 100, 0⟩ (by rw [hi]; exact List.mem_singleton_self _)
  exact absurd hvalid (by decide)

end OsLab.Bank
