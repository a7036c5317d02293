import OsLab.Bank.Code
import OsLab.Foundation.Interleaving

/-! The bank at work: the threads of `execute_transaction`, the timer thread, and what they
share. A step of the machine is one atomic step of one of them. -/

namespace OsLab.Bank

variable {n : Nat}

/-- A thread in `execute_transaction`: what it has still to do, its variables, and the fields it
writes in its transaction. `ops` are the operations that the loop has not begun, and `outcomes`
the results of those that have returned. -/
structure Thread where
  code : Code
  ops : List Operation
  tickBefore : Int
  currentTick : Int
  temp : Int
  balance : Int
  actualStart : Int
  actualEnd : Int
  waitTicks : Int
  status : TxStatus
  outcomes : List (Operation × Outcome)
deriving DecidableEq

structure State (n : Nat) where
  threads : Fin n → Thread
  clock : Clock n
  pool : BufferPool n
  locks : AccountId → RwLock n
  ledger : Ledger

def Thread.setTick (th : Thread) (globalTick : Int) : TickVar → Thread
  | .actualStart => { th with actualStart := globalTick }
  | .tickBefore => { th with tickBefore := globalTick }
  | .currentTick => { th with currentTick := globalTick }
  | .actualEnd => { th with actualEnd := globalTick }

def Thread.tick (th : Thread) (globalTick : Int) : TickAction → Thread
  | .read var => th.setTick globalTick var
  | _ => th

def Thread.ledger (th : Thread) (ledger : Ledger) : LedgerAction → Thread
  | .fetch account => { th with temp := ledger.1 account }
  | .read account => { th with balance := ledger.1 account }
  | _ => th

def returned (outcome : Option Outcome) (balance : Int) : Outcome :=
  outcome.getD (.balance balance)

def Thread.perform (th : Thread) : LocalAction → Thread
  | .addWaitTicks => { th with waitTicks := th.waitTicks + (th.currentTick - th.tickBefore) }
  | .setStatus status => { th with status := status }
  | .opReturn op outcome =>
    { th with outcomes := th.outcomes ++ [(op, returned outcome th.balance)] }

def Target.value (th : Thread) : Target → Int
  | tick value => value
  | nextTick => th.currentTick + 1

namespace State

/-- The thread `t` goes on as `th`. -/
def setThread (s : State n) (t : Fin n) (th : Thread) : State n :=
  { s with threads := Function.update s.threads t th }

def perform (s : State n) (t : Fin n) : Action → Option (State n × Thread)
  | .pool action => (action.perform t s.pool).map fun pool => ({ s with pool := pool }, s.threads t)
  | .rwlock account action =>
    (action.perform t (s.locks account)).map fun lock =>
      ({ s with locks := Function.update s.locks account lock }, s.threads t)
  | .tick action =>
    (action.perform t s.clock).map fun clock =>
      ({ s with clock := clock }, (s.threads t).tick s.clock.globalTick action)
  | .ledger action =>
    some ({ s with ledger := action.perform (s.threads t).temp s.ledger },
      (s.threads t).ledger s.ledger action)
  | .thread action => some (s, (s.threads t).perform action)

/-- A step of the thread `t`. `pthread_cond_wait` gives the lock back, and takes it again when it
returns, for whatever reason it does. -/
def threadStep (s : State n) (t : Fin n) : Option (State n) :=
  let th := s.threads t
  match th.code with
  | .halt => none
  | .loop =>
    match th.ops with
    | [] => some (s.setThread t { th with code := commitTransaction })
    | op :: ops => some (s.setThread t { th with code := executeOperation op, ops := ops })
  | .act action next =>
    (s.perform t action).map fun (s', th') => s'.setThread t { th' with code := next }
  | .await target next =>
    if s.clock.globalTick < target.value th then
      some ({ s with clock := { s.clock with tickLock := none } }.setThread t
        { th with code := .act (.tick .lock) (.await target next) })
    else some (s.setThread t { th with code := next })
  | .check account amount enough short =>
    let next := if s.ledger.1 account < amount then short else enough
    some (s.setThread t { th with code := next })

def step (s : State n) : Party n → Option (State n)
  | .timer => s.clock.timerStep.map fun clock => { s with clock := clock }
  | .thread t => s.threadStep t

/-- The thread of a transaction right after `pthread_create`. -/
def startThread (tx : Transaction) : Thread where
  code := executeTransaction tx.startTick
  ops := tx.ops
  tickBefore := 0
  currentTick := 0
  temp := 0
  balance := 0
  actualStart := 0
  actualEnd := 0
  waitTicks := 0
  status := .running
  outcomes := []

/-- The state in which `main` has started all threads. -/
def initialState (ledger : Ledger) (txs : Fin n → Transaction) : State n where
  threads t := startThread (txs t)
  clock := initTimer n
  pool := initBufferPool n
  locks _ := RwLock.free
  ledger := ledger

/-- The reserve and all balances, as `main` adds them up before and after the run. -/
def calculateTotalBalance (s : State n) : Int := s.ledger.2 + ∑ account, s.ledger.1 account

def Finished (s : State n) (t : Fin n) : Prop := (s.threads t).code = .halt

instance (s : State n) (t : Fin n) : Decidable (s.Finished t) :=
  inferInstanceAs (Decidable (_ = _))

end State

def sampleTxs (t : Fin 2) : Transaction :=
  if t = 0 then ⟨[⟨.deposit, 0, 500, 0⟩], 0⟩ else ⟨[⟨.transfer, 0, 20000, 1⟩], 0⟩

def sampleLedger : Ledger := (fun _ => 10000, 0)

def sampleSchedule : List (Party 2) :=
  List.replicate 17 (.thread 0) ++ List.replicate 21 (.thread 1) ++ List.replicate 11 (.thread 0) ++
    List.replicate 3 .timer ++ List.replicate 20 (.thread 1) ++ List.replicate 13 (.thread 0)

theorem sampleSchedule_finished :
    ∃ s, Interleaving.runSchedule State.step sampleSchedule
      (State.initialState sampleLedger sampleTxs) = some s ∧ ∀ t, s.Finished t := by
  have hrun : ∃ s ∈ Interleaving.runSchedule State.step sampleSchedule
      (State.initialState sampleLedger sampleTxs), ∀ t, s.Finished t := by decide +kernel
  exact hrun

end OsLab.Bank
