import OsLab.Bank.Data
import OsLab.Foundation.CScan

/-! The loaders of `parser.c`, which fill the accounts of the bank and the table of transactions. -/

namespace OsLab.Bank

open CText

abbrev maxTransactions : Nat := 100

abbrev maxOperations : Nat := 256

def transactionEnd : Int := -1

/-- Why the loader returns -1, or else which array it writes beyond the end of. -/
inductive LoadFault where
  | cannotOpen
  | labelTooLong
  | wordTooLong
  | opsFull
  | tableFull
deriving DecidableEq, Repr

def atoi (text : List Char) : Int := (scanD text).elim 0 Prod.fst

/-- The fields of a line that the first `sscanf` reads, and the text after them. -/
structure TraceRecord where
  label : List Char
  tick : Int
  word : List Char
  accountId : Int
  rest : List Char
deriving DecidableEq, Repr

/-- `sscanf` with `%s %d %s %d`, into buffers for 9 and 19 characters. -/
def scanRecord (line : List Char) : Except LoadFault (Option TraceRecord) :=
  match scanWord line with
  | none => .ok none
  | some (label, rest) =>
    if 9 < label.length then .error .labelTooLong
    else
      match scanD rest with
      | none => .ok none
      | some (tick, rest) =>
        match scanWord rest with
        | none => .ok none
        | some (word, rest) =>
          if 19 < word.length then .error .wordTooLong
          else .ok ((scanD rest).map fun r => ⟨label, tick, word, r.1, r.2⟩)

def lineRecord (line : List Char) : Except LoadFault (Option TraceRecord) :=
  if line.head? = some '#' ∨ line.head? = some '\n' then .ok none else scanRecord line

def InRange (id : Int) : Prop := 0 ≤ id ∧ id < maxAccounts

instance (id : Int) : Decidable (InRange id) := inferInstanceAs (Decidable (_ ∧ _))

def accountId? (id : Int) : Option AccountId :=
  if h : InRange id then some ⟨id.toNat, by unfold InRange at h; omega⟩ else none

def depositWord : List Char := "DEPOSIT".toList

def withdrawWord : List Char := "WITHDRAW".toList

def transferWord : List Char := "TRANSFER".toList

def balanceWord : List Char := "BALANCE".toList

def getOpType (word : List Char) : OpType :=
  if word = depositWord then .deposit
  else if word = withdrawWord then .withdraw
  else if word = transferWord then .transfer
  else if word = balanceWord then .balance
  else .balance

@[ext]
structure LoadedOperation where
  type : OpType
  accountId : Int
  amountCentavos : Int
  targetAccount : Int
deriving DecidableEq, Repr

/-- What the line makes of an entry that is all zero. A number that is missing leaves its zero. -/
def TraceRecord.operation (r : TraceRecord) : LoadedOperation :=
  match getOpType r.word with
  | .transfer =>
    match scanD r.rest with
    | none => ⟨.transfer, r.accountId, 0, 0⟩
    | some (target, rest) => ⟨.transfer, r.accountId, (scanD rest).elim 0 Prod.fst, target⟩
  | .balance => ⟨.balance, r.accountId, 0, 0⟩
  | type => ⟨type, r.accountId, (scanD r.rest).elim 0 Prod.fst, 0⟩

/-- The operation as the executor indexes the accounts with it; only a transfer has a target. -/
def LoadedOperation.operation? (op : LoadedOperation) : Option Operation := do
  let account ← accountId? op.accountId
  let target ← if op.type = .transfer then accountId? op.targetAccount else some 0
  return ⟨op.type, account, op.amountCentavos, target⟩

/-- `ops` are the operations up to `num_ops`. -/
@[ext]
structure LoadedTransaction where
  txId : Int
  ops : List LoadedOperation
  startTick : Int
  status : TxStatus
deriving DecidableEq, Repr

def LoadedTransaction.transaction? (tx : LoadedTransaction) : Option Transaction :=
  (tx.ops.mapM LoadedOperation.operation?).map fun ops => ⟨ops, tx.startTick⟩

def LoadedTransaction.zero : LoadedTransaction := ⟨0, [], 0, .running⟩

structure LoadedTable where
  entries : Fin maxTransactions → LoadedTransaction
  txCount : Nat
  txCount_lt : txCount < maxTransactions

def LoadedTable.zero : LoadedTable := ⟨fun _ => .zero, 0, Nat.zero_lt_succ _⟩

namespace LoadedTable

def find (table : LoadedTable) (id : Int) : Option (Fin maxTransactions) :=
  (List.finRange maxTransactions).find? fun i => (table.entries i).txId = id

def create (table : LoadedTable) (id tick : Int) (h : table.txCount < maxTransactions - 1) :
    LoadedTable where
  entries := Function.update table.entries ⟨table.txCount, table.txCount_lt⟩
    { table.entries ⟨table.txCount, table.txCount_lt⟩ with
      txId := id, startTick := tick, status := .running }
  txCount := table.txCount + 1
  txCount_lt := Nat.add_lt_of_lt_sub h

def addOperation (table : LoadedTable) (i : Fin maxTransactions) (op : LoadedOperation) :
    Except LoadFault LoadedTable :=
  if (table.entries i).ops.length < maxOperations then
    .ok { table with
      entries := Function.update table.entries i
        { table.entries i with ops := (table.entries i).ops ++ [op] } }
  else .error .opsFull

def addRecord (table : LoadedTable) (r : TraceRecord) : Except LoadFault LoadedTable :=
  let id := atoi (r.label.drop 1)
  match table.find id with
  | some i => table.addOperation i r.operation
  | none =>
    if h : table.txCount < maxTransactions - 1 then
      (table.create id r.tick h).addOperation ⟨table.txCount, table.txCount_lt⟩ r.operation
    else .error .tableFull

def loadLine (table : LoadedTable) (line : List Char) : Except LoadFault LoadedTable := do
  match ← lineRecord line with
  | none => .ok table
  | some r => table.addRecord r

def loadLines (table : LoadedTable) : List (List Char) → Except LoadFault LoadedTable
  | [] => .ok table
  | line :: lines =>
    if table.txCount < maxTransactions - 1 then do
      let table ← table.loadLine line
      table.loadLines lines
    else .ok table

def finish (table : LoadedTable) : LoadedTable :=
  { table with
    entries := Function.update table.entries ⟨table.txCount, table.txCount_lt⟩
      { table.entries ⟨table.txCount, table.txCount_lt⟩ with txId := transactionEnd } }

def transactions (table : LoadedTable) : List LoadedTransaction :=
  ((List.finRange maxTransactions).map table.entries).takeWhile fun tx => tx.txId ≠ transactionEnd

end LoadedTable

def traceLines (text : List Char) : List (List Char) := readLines 256 text.length text

def loadTransactions (file : Option (List Char)) : Except LoadFault LoadedTable :=
  match file with
  | none => .error .cannotOpen
  | some text => (LoadedTable.zero.loadLines (traceLines text)).map LoadedTable.finish

/-- The id and the exact number of a line that `load_accounts` accepts. -/
def accountRecord (line : List Char) : Option (AccountId × Int) := do
  if line.head? = some '#' ∨ line.head? = some '\n' then none
  else
    let (id, rest) ← scanD line
    let (balance, _) ← scanInt rest
    let account ← accountId? id
    return (account, balance)

def accountLines (text : List Char) : List (List Char) := readLines 128 text.length text

def storeBalances (store : Int → Int) (lines : List (List Char)) : AccountId → Int :=
  (lines.filterMap accountRecord).foldl
    (fun balances r => Function.update balances r.1 (store r.2)) fun _ => 0

/-- `%ld` reads a `long`, and `balance_centavos` is an `int`. -/
def loadAccounts (text : List Char) : AccountId → Int :=
  storeBalances (fun balance => toInt (toLong balance)) (accountLines text)

/-- A trace and the accounts as the tests have them. -/
example : (loadTransactions (some "# a\nT1  0  DEPOSIT   10  10000\nT1  1  BALANCE   10".toList)).map
      LoadedTable.transactions =
    .ok [⟨1, [⟨.deposit, 10, 10000, 0⟩, ⟨.balance, 10, 0, 0⟩], 0, .running⟩] := by decide +kernel

example : loadAccounts "# id balance\n0   10000\n10  3000000000\n".toList 10 = -1294967296 := by
  decide +kernel

end OsLab.Bank
