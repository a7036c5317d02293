import OsLab.Bank.Sequential

/-! The point at which an operation takes effect. It is committed once nothing but its own reads
and writes of accounts, its unlocks and its update of the reserve stand between it and its return:
its result is then certain, and so is what it still changes. -/

namespace OsLab.Bank

open Code

def Action.internal : Action → Bool
  | ledger (.fetch _) => true
  | ledger (.store _ _) => true
  | ledger (.addReserve _) => true
  | rwlock _ (.unlock _) => true
  | _ => false

def Action.change : Action → Ledger
  | ledger (.store account amount) => Ledger.credit account amount
  | ledger (.addReserve amount) => (0, amount)
  | _ => 0

namespace Code

def promise (balance : Int) : Code → Option (Operation × Outcome)
  | act (.thread (.opReturn op outcome)) _ => some (op, returned outcome balance)
  | act action next => if action.internal then next.promise balance else none
  | _ => none

def pending : Code → Ledger
  | act action next => if action.internal then action.change + next.pending else 0
  | _ => 0

def Idle (c : Code) : Prop := c.pending = 0 ∧ ∀ balance, c.promise balance = none

/-- What is committed here is what the operation does when it runs alone on the ledger `l`. -/
def Performs (l : Ledger) (balance : Int) (c : Code) : Prop :=
  ∃ p, c.promise balance = some p ∧ l.run p.1 = (l + c.pending, p.2)

/-- The step before `c` commits: by the read of a balance or whatever the ledger is. -/
def Commits (action : Action) (c : Code) : Prop :=
  ∀ l balance, (∀ x, action = .ledger (.read x) → balance = l.1 x) → Performs l balance c

/-- Every operation of the code is committed by one of its steps, and then does what it does when
it runs alone. -/
def Linear : Code → Prop
  | loop => True
  | halt => True
  | await _ next => next.Idle ∧ next.Linear
  | check account amount enough short =>
    (∀ l balance, amount ≤ l.1 account → Performs l balance enough) ∧
      (∀ l balance, l.1 account < amount → Performs l balance short) ∧
      enough.Linear ∧ short.Linear
  | act (.thread (.opReturn _ _)) next => next.Idle ∧ next.Linear
  | act action next => (action.internal = true ∨ next.Idle ∨ Commits action next) ∧ next.Linear

variable {next rest : Code} {op : Operation}

theorem idle_tick (actions : List TickAction) (hnext : next.Idle) : (tick actions next).Idle := by
  cases actions with
  | nil => exact hnext
  | cons a actions => exact ⟨rfl, fun _ => rfl⟩

theorem idle_pool (actions : List PoolAction) (hnext : next.Idle) : (pool actions next).Idle := by
  cases actions with
  | nil => exact hnext
  | cons a actions => exact ⟨rfl, fun _ => rfl⟩

theorem linear_tick (actions : List TickAction) (hidle : next.Idle) (hnext : next.Linear) :
    (tick actions next).Linear := by
  induction actions with
  | nil => exact hnext
  | cons a actions ih => exact ⟨.inr (.inl (idle_tick actions hidle)), ih⟩

theorem linear_pool (actions : List PoolAction) (hidle : next.Idle) (hnext : next.Linear) :
    (pool actions next).Linear := by
  induction actions with
  | nil => exact hnext
  | cons a actions ih => exact ⟨.inr (.inl (idle_pool actions hidle)), ih⟩

structure Quiet (c : Code) : Prop where
  idle : c.Idle
  linear : c.Linear

theorem quiet_loop : Quiet .loop := ⟨⟨rfl, fun _ => rfl⟩, trivial⟩

theorem quiet_halt : Quiet .halt := ⟨⟨rfl, fun _ => rfl⟩, trivial⟩

theorem Quiet.readTick (h : next.Quiet) (var : TickVar) : Quiet (readTick var next) :=
  ⟨idle_tick _ h.idle, linear_tick _ h.idle h.linear⟩

theorem Quiet.waitUntilTick (h : next.Quiet) (target : Target) :
    Quiet (waitUntilTick target next) := by
  have hunlock : Quiet (tick [.unlock] next) := ⟨idle_tick _ h.idle, linear_tick _ h.idle h.linear⟩
  exact ⟨⟨rfl, fun _ => rfl⟩, .inr (.inl ⟨rfl, fun _ => rfl⟩), hunlock.idle, hunlock.linear⟩

theorem Quiet.loadAccount (h : next.Quiet) (account : AccountId) :
    Quiet (loadAccount account next) := ⟨idle_pool _ h.idle, linear_pool _ h.idle h.linear⟩

theorem Quiet.unloadAccount (h : next.Quiet) (account : AccountId) :
    Quiet (unloadAccount account next) := ⟨idle_pool _ h.idle, linear_pool _ h.idle h.linear⟩

theorem quiet_setStatus (h : next.Quiet) (status : TxStatus) :
    Quiet (thread (.setStatus status) next) :=
  ⟨⟨rfl, fun _ => rfl⟩, .inr (.inl h.idle), h.linear⟩

theorem quiet_abortTransaction : Quiet abortTransaction :=
  quiet_setStatus (quiet_halt.readTick _) _

theorem quiet_commitTransaction : Quiet commitTransaction :=
  (quiet_setStatus quiet_halt _).readTick _

theorem quiet_executeTransaction (startTick : Int) : Quiet (executeTransaction startTick) :=
  ((quiet_setStatus quiet_loop _).readTick _).waitUntilTick _

theorem quiet_finishOperation {unload : Code → Code} (h : Quiet (unload .loop)) :
    Quiet (finishOperation unload) := by
  have hwait := h.waitUntilTick .nextTick
  have hadd : Quiet (thread .addWaitTicks <| OsLab.Bank.waitUntilTick .nextTick (unload .loop)) :=
    ⟨⟨rfl, fun _ => rfl⟩, .inr (.inl hwait.idle), hwait.linear⟩
  exact hadd.readTick _

theorem linear_getBalance (hop : op.type = .balance) (h : rest.Quiet) :
    Linear (getBalance op.accountId (thread (.opReturn op none) rest)) := by
  refine ⟨.inr (.inl ⟨rfl, fun _ => rfl⟩), .inr (.inr fun l balance hread => ?_), .inl rfl, h.idle,
    h.linear⟩
  refine ⟨(op, .balance balance), rfl, ?_⟩
  have hvalue := hread op.accountId rfl
  simp [Ledger.run, hop, Ledger.getBalance, hvalue, rwlock, thread, pending, Action.internal,
    Action.change]

theorem linear_deposit (hop : op.type = .deposit) (h : rest.Quiet) :
    Linear (deposit op.accountId op.amountCentavos (thread (.opReturn op (some .done)) rest)) := by
  refine ⟨.inr (.inr fun l balance _ => ?_), .inl rfl, .inl rfl, .inl rfl, .inl rfl, h.idle, h.linear⟩
  refine ⟨(op, .done), rfl, ?_⟩
  simp [Ledger.run, hop, Ledger.deposit_eq, rwlock, thread, ledger, pending, Action.internal,
    Action.change]

theorem linear_withdraw (hop : op.type = .withdraw) {rest' : Code} (h : rest.Quiet)
    (h' : rest'.Quiet) :
    Linear (withdraw op.accountId op.amountCentavos (thread (.opReturn op (some .done)) rest)
      (thread (.opReturn op (some .refused)) rest')) := by
  refine ⟨.inr (.inl ⟨rfl, fun _ => rfl⟩), fun l balance hle => ⟨(op, .done), rfl, ?_⟩,
    fun l balance hlt => ⟨(op, .refused), rfl, ?_⟩, ?_, .inl rfl, h'.idle, h'.linear⟩
  · simp [Ledger.run, hop, Ledger.withdraw_eq_of_le hle, rwlock, thread, ledger, pending,
      Action.internal, Action.change, Ledger.outcomeOf]
  · simp [Ledger.run, hop, Ledger.withdraw, hlt, rwlock, thread, pending, Action.internal,
      Action.change, Ledger.outcomeOf]
  · exact ⟨.inl rfl, .inl rfl, .inl rfl, .inl rfl, h.idle, h.linear⟩

theorem linear_locked {first second : AccountId} (hop : op.type = .transfer)
    (hne : op.accountId ≠ op.targetAccount) {rest' : Code} (h : rest.Quiet) (h' : rest'.Quiet) :
    Linear (rwlock first .wrlock <| rwlock second .wrlock <|
      .check op.accountId op.amountCentavos
        (ledger [.fetch op.accountId, .store op.accountId (-op.amountCentavos),
            .fetch op.targetAccount, .store op.targetAccount op.amountCentavos] <|
          rwlock second (.unlock .write) <| rwlock first (.unlock .write) <|
          thread (.opReturn op (some .done)) rest)
        (rwlock second (.unlock .write) <| rwlock first (.unlock .write) <|
          thread (.opReturn op (some .refused)) rest')) := by
  refine ⟨.inr (.inl ⟨rfl, fun _ => rfl⟩), .inr (.inl ⟨rfl, fun _ => rfl⟩),
    fun l balance hle => ⟨(op, .done), rfl, ?_⟩, fun l balance hlt => ⟨(op, .refused), rfl, ?_⟩, ?_,
    .inl rfl, .inl rfl, h'.idle, h'.linear⟩
  · simp [Ledger.run, hop, Ledger.transfer_eq_of_le hne hle, rwlock, thread, ledger, pending,
      Action.internal, Action.change, Ledger.outcomeOf]
  · simp [Ledger.run, hop, Ledger.transfer, hne, hlt, rwlock, thread, pending, Action.internal,
      Action.change, Ledger.outcomeOf]
  · exact ⟨.inl rfl, .inl rfl, .inl rfl, .inl rfl, .inl rfl, .inl rfl, h.idle, h.linear⟩

theorem linear_transfer (hop : op.type = .transfer) {rest' : Code} (h : rest.Quiet)
    (h' : rest'.Quiet) {c : Code}
    (hc : c = transfer op.accountId op.targetAccount op.amountCentavos
      (thread (.opReturn op (some .done)) rest) (thread (.opReturn op (some .refused)) rest')) :
    (c.Idle ∨ Commits (.pool .unlock) c) ∧ c.Linear := by
  subst hc
  unfold transfer
  split_ifs with heq hlt
  · refine ⟨.inr fun l balance _ => ⟨(op, .done), rfl, ?_⟩, h.idle, h.linear⟩
    simp [Ledger.run, hop, Ledger.transfer, heq, thread, pending, Action.internal,
      Ledger.outcomeOf]
  · exact ⟨.inl ⟨rfl, fun _ => rfl⟩, linear_locked hop heq h h'⟩
  · exact ⟨.inl ⟨rfl, fun _ => rfl⟩, linear_locked hop heq h h'⟩

theorem linear_loadAccount (account : AccountId) (hstart : next.Idle ∨ Commits (.pool .unlock) next)
    (hnext : next.Linear) : Linear (loadAccount account next) :=
  ⟨.inr (.inl ⟨rfl, fun _ => rfl⟩), .inr (.inl ⟨rfl, fun _ => rfl⟩),
    .inr (.inl ⟨rfl, fun _ => rfl⟩), .inr (.inl ⟨rfl, fun _ => rfl⟩), .inr hstart, hnext⟩

theorem linear_executeOperation (op : Operation) : (executeOperation op).Linear := by
  unfold executeOperation
  have hread : ∀ {account next}, (loadAccount account next).Linear →
      (readTick .tickBefore (loadAccount account next)).Linear := fun h =>
    linear_tick _ ⟨rfl, fun _ => rfl⟩ h
  cases hop : op.type with
  | deposit =>
    have hrest := quiet_finishOperation (quiet_loop.unloadAccount op.accountId)
    exact hread (linear_loadAccount _ (.inl ⟨rfl, fun _ => rfl⟩) (linear_deposit hop hrest))
  | withdraw =>
    have hrest := quiet_finishOperation (quiet_loop.unloadAccount op.accountId)
    have hrest' := quiet_abortTransaction.unloadAccount op.accountId
    exact hread (linear_loadAccount _ (.inl ⟨rfl, fun _ => rfl⟩) (linear_withdraw hop hrest hrest'))
  | transfer =>
    have hrest : Quiet (finishOperation fun next =>
        OsLab.Bank.unloadAccount op.second <| OsLab.Bank.unloadAccount op.first next) :=
      quiet_finishOperation ((quiet_loop.unloadAccount op.first).unloadAccount op.second)
    have hrest' := (quiet_abortTransaction.unloadAccount op.second).unloadAccount op.first
    -- `hstart`: between one account and itself the transfer commits with its second slot
    obtain ⟨hstart, hlinear⟩ := linear_transfer hop hrest hrest' rfl
    exact hread (linear_loadAccount _ (.inl ⟨rfl, fun _ => rfl⟩)
      (linear_loadAccount _ hstart hlinear))
  | balance =>
    have hrest := quiet_finishOperation (quiet_loop.unloadAccount op.accountId)
    exact hread (linear_loadAccount _ (.inl ⟨rfl, fun _ => rfl⟩) (linear_getBalance hop hrest))

theorem idle_executeOperation (op : Operation) : (executeOperation op).Idle := ⟨rfl, fun _ => rfl⟩

end Code

end OsLab.Bank
