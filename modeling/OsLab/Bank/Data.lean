import Mathlib

/-! The data of `bankdb.h` and `buffer_pool.h`, and what the threads do to each part of it in one
step: the buffer pool, the lock of an account, and the accounts themselves. A step that has to
wait is `none`. -/

namespace OsLab.Bank

abbrev maxAccounts : Nat := 100

instance : NeZero maxAccounts := ⟨Nat.succ_ne_zero 99⟩

abbrev bufferPoolSize : Nat := 5

abbrev AccountId := Fin maxAccounts

inductive OpType where
  | deposit
  | withdraw
  | transfer
  | balance
deriving DecidableEq, Repr

structure Operation where
  type : OpType
  accountId : AccountId
  amountCentavos : Int
  targetAccount : AccountId
deriving DecidableEq, Repr

inductive TxStatus where
  | running
  | committed
  | aborted
deriving DecidableEq, Repr

structure Transaction where
  ops : List Operation
  startTick : Int
deriving DecidableEq, Repr

/-- What a call of a bank function gives back: nothing or `true`, `false`, or a balance. -/
inductive Outcome where
  | done
  | refused
  | balance (value : Int)
deriving DecidableEq, Repr

variable {n : Nat}

structure BufferPool (n : Nat) where
  slots : Fin bufferPoolSize → Option AccountId
  emptySlots : Nat
  poolLock : Option (Fin n)
  totalLoads : Int
  totalUnloads : Int
  currentUsage : Int
  peakUsage : Int

def initBufferPool (n : Nat) : BufferPool n where
  slots _ := none
  emptySlots := bufferPoolSize
  poolLock := none
  totalLoads := 0
  totalUnloads := 0
  currentUsage := 0
  peakUsage := 0

/-- The steps of `load_account` and `unload_account`. -/
inductive PoolAction where
  | semWait
  | lock
  | countLoad
  | takeSlot (account : AccountId)
  | countUnload
  | freeSlot (account : AccountId)
  | unlock
  | semPost
deriving DecidableEq, Repr

def setFirst (slots : Fin bufferPoolSize → Option AccountId) (old new : Option AccountId) :
    Fin bufferPoolSize → Option AccountId :=
  match (List.finRange bufferPoolSize).find? fun i => slots i = old with
  | some i => Function.update slots i new
  | none => slots

def PoolAction.perform (thread : Fin n) (pool : BufferPool n) : PoolAction → Option (BufferPool n)
  | semWait =>
    if 0 < pool.emptySlots then some { pool with emptySlots := pool.emptySlots - 1 } else none
  | lock => if pool.poolLock = none then some { pool with poolLock := some thread } else none
  | countLoad =>
    let currentUsage := pool.currentUsage + 1
    some { pool with
      totalLoads := pool.totalLoads + 1
      currentUsage := currentUsage
      peakUsage := if pool.peakUsage < currentUsage then currentUsage else pool.peakUsage }
  | takeSlot account => some { pool with slots := setFirst pool.slots none (some account) }
  | countUnload =>
    some { pool with
      totalUnloads := pool.totalUnloads + 1
      currentUsage := pool.currentUsage - 1 }
  | freeSlot account => some { pool with slots := setFirst pool.slots (some account) none }
  | unlock => some { pool with poolLock := none }
  | semPost => some { pool with emptySlots := pool.emptySlots + 1 }

inductive LockMode where
  | read
  | write
deriving DecidableEq, Repr

structure RwLock (n : Nat) where
  readers : Finset (Fin n)
  writer : Option (Fin n)

def RwLock.free : RwLock n := ⟨∅, none⟩

inductive LockAction where
  | rdlock
  | wrlock
  | unlock (mode : LockMode)
deriving DecidableEq, Repr

def LockAction.perform (thread : Fin n) (lock : RwLock n) : LockAction → Option (RwLock n)
  | rdlock =>
    if lock.writer = none then some { lock with readers := insert thread lock.readers } else none
  | wrlock =>
    if lock.writer = none ∧ lock.readers = ∅ then some { lock with writer := some thread } else none
  | unlock .read => some { lock with readers := lock.readers.erase thread }
  | unlock .write => some { lock with writer := none }

/-- Who can hold `tick_lock`, and whose turn a step is. -/
inductive Party (n : Nat) where
  | timer
  | thread (t : Fin n)
deriving DecidableEq, Repr

inductive TimerPhase where
  | sleeping
  | locked
  | ticked
deriving DecidableEq, Repr

structure Clock (n : Nat) where
  globalTick : Int
  tickLock : Option (Party n)
  timer : TimerPhase
deriving DecidableEq

def initTimer (n : Nat) : Clock n := ⟨0, none, .sleeping⟩

def Clock.timerStep (clock : Clock n) : Option (Clock n) :=
  match clock.timer with
  | .sleeping =>
    if clock.tickLock = none then some { clock with tickLock := some .timer, timer := .locked }
    else none
  | .locked => some { clock with globalTick := clock.globalTick + 1, timer := .ticked }
  | .ticked => some { clock with tickLock := none, timer := .sleeping }

/-- The variables that `global_tick` is read into. -/
inductive TickVar where
  | actualStart
  | tickBefore
  | currentTick
  | actualEnd
deriving DecidableEq, Repr

inductive TickAction where
  | lock
  | unlock
  | read (var : TickVar)
deriving DecidableEq, Repr

def TickAction.perform (thread : Fin n) (clock : Clock n) : TickAction → Option (Clock n)
  | lock =>
    if clock.tickLock = none then some { clock with tickLock := some (.thread thread) } else none
  | unlock => some { clock with tickLock := none }
  | read _ => some clock

abbrev Ledger := (AccountId → Int) × Int

/-- `fetch` and `store` are the two halves of a `+=` on a balance, and `read` is the plain read of
`get_balance`. Only the update of the reserve is atomic. -/
inductive LedgerAction where
  | fetch (account : AccountId)
  | store (account : AccountId) (amount : Int)
  | read (account : AccountId)
  | addReserve (amount : Int)
deriving DecidableEq, Repr

/-- `temp` is what the thread's last `fetch` has found. -/
def LedgerAction.perform (temp : Int) (ledger : Ledger) : LedgerAction → Ledger
  | store account amount => (Function.update ledger.1 account (temp + amount), ledger.2)
  | addReserve amount => (ledger.1, ledger.2 + amount)
  | _ => ledger

end OsLab.Bank
