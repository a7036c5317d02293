import OsLab.Bank.Data

/-! The code of `bank.c`, `buffer_pool.c`, `timer.c` and `transaction.c` as the atomic steps that a
thread makes one after the other. Each function of the source takes the code that follows its
call; one with a result takes the code that follows each result. -/

namespace OsLab.Bank

inductive LocalAction where
  | addWaitTicks
  | setStatus (status : TxStatus)
  | opReturn (op : Operation) (outcome : Option Outcome)
deriving DecidableEq, Repr

inductive Action where
  | pool (action : PoolAction)
  | rwlock (account : AccountId) (action : LockAction)
  | tick (action : TickAction)
  | ledger (action : LedgerAction)
  | thread (action : LocalAction)
deriving DecidableEq, Repr

/-- What `wait_until_tick` waits for: a fixed tick, or the one after `current_tick`. -/
inductive Target where
  | tick (value : Int)
  | nextTick
deriving DecidableEq, Repr

/-- `loop` is the head of the loop over the operations, and `halt` the return of the thread.
`await` is the condition of the loop in `wait_until_tick`, and `check` the test for sufficient
funds. -/
inductive Code where
  | loop
  | halt
  | act (action : Action) (next : Code)
  | await (target : Target) (next : Code)
  | check (account : AccountId) (amount : Int) (enough short : Code)
deriving DecidableEq, Repr

namespace Code

def pool (actions : List PoolAction) (next : Code) : Code :=
  actions.foldr (fun a => act (.pool a)) next

def tick (actions : List TickAction) (next : Code) : Code :=
  actions.foldr (fun a => act (.tick a)) next

def rwlock (account : AccountId) (action : LockAction) (next : Code) : Code :=
  act (.rwlock account action) next

def ledger (actions : List LedgerAction) (next : Code) : Code :=
  actions.foldr (fun a => act (.ledger a)) next

def thread (action : LocalAction) (next : Code) : Code := act (.thread action) next

end Code

open Code

def waitUntilTick (targetTick : Target) (next : Code) : Code :=
  tick [.lock] <| .await targetTick <| tick [.unlock] next

/-- A read of `global_tick` under its lock. -/
def readTick (var : TickVar) (next : Code) : Code := tick [.lock, .read var, .unlock] next

def loadAccount (account : AccountId) (next : Code) : Code :=
  pool [.semWait, .lock, .countLoad, .takeSlot account, .unlock] next

def unloadAccount (account : AccountId) (next : Code) : Code :=
  pool [.lock, .countUnload, .freeSlot account, .unlock, .semPost] next

def getBalance (account : AccountId) (next : Code) : Code :=
  rwlock account .rdlock <| ledger [.read account] <| rwlock account (.unlock .read) next

def deposit (account : AccountId) (amount : Int) (next : Code) : Code :=
  rwlock account .wrlock <|
  ledger [.fetch account, .store account amount] <|
  rwlock account (.unlock .write) <|
  ledger [.addReserve (-amount)] next

def withdraw (account : AccountId) (amount : Int) (onTrue onFalse : Code) : Code :=
  rwlock account .wrlock <|
  .check account amount
    (ledger [.fetch account, .store account (-amount)] <|
      rwlock account (.unlock .write) <|
      ledger [.addReserve amount] onTrue)
    (rwlock account (.unlock .write) onFalse)

def transfer (fromId toId : AccountId) (amount : Int) (onTrue onFalse : Code) : Code :=
  if fromId = toId then onTrue
  else
    let firstId := if fromId < toId then fromId else toId
    let secondId := if fromId < toId then toId else fromId
    rwlock firstId .wrlock <|
    rwlock secondId .wrlock <|
    .check fromId amount
      (ledger [.fetch fromId, .store fromId (-amount), .fetch toId, .store toId amount] <|
        rwlock secondId (.unlock .write) <|
        rwlock firstId (.unlock .write) onTrue)
      (rwlock secondId (.unlock .write) <|
        rwlock firstId (.unlock .write) onFalse)

/-- The rest of `execute_transaction` after a withdrawal or a transfer that was refused, once the
slots are free. -/
def abortTransaction : Code := thread (.setStatus .aborted) <| readTick .actualEnd .halt

def finishOperation (unload : Code → Code) : Code :=
  readTick .currentTick <| thread .addWaitTicks <| waitUntilTick .nextTick <| unload .loop

def Operation.first (op : Operation) : AccountId :=
  if op.accountId < op.targetAccount then op.accountId else op.targetAccount

def Operation.second (op : Operation) : AccountId :=
  if op.accountId < op.targetAccount then op.targetAccount else op.accountId

def executeOperation (op : Operation) : Code :=
  readTick .tickBefore <|
  match op.type with
  | .deposit =>
    loadAccount op.accountId <|
    deposit op.accountId op.amountCentavos <|
    thread (.opReturn op (some .done)) <|
    finishOperation (unloadAccount op.accountId)
  | .withdraw =>
    loadAccount op.accountId <|
    withdraw op.accountId op.amountCentavos
      (thread (.opReturn op (some .done)) <|
        finishOperation (unloadAccount op.accountId))
      (thread (.opReturn op (some .refused)) <|
        unloadAccount op.accountId abortTransaction)
  | .transfer =>
    loadAccount op.first <|
    loadAccount op.second <|
    transfer op.accountId op.targetAccount op.amountCentavos
      (thread (.opReturn op (some .done)) <|
        finishOperation fun next => unloadAccount op.second <| unloadAccount op.first next)
      (thread (.opReturn op (some .refused)) <|
        unloadAccount op.first <| unloadAccount op.second abortTransaction)
  | .balance =>
    loadAccount op.accountId <|
    getBalance op.accountId <|
    thread (.opReturn op none) <|
    finishOperation (unloadAccount op.accountId)

/-- The part of `execute_transaction` before its loop. -/
def executeTransaction (startTick : Int) : Code :=
  waitUntilTick (.tick startTick) <|
  readTick .actualStart <|
  thread (.setStatus .running) .loop

def commitTransaction : Code := readTick .actualEnd <| thread (.setStatus .committed) .halt

end OsLab.Bank
