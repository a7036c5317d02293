import OsLab.Bank.Machine

/-! Which locks and slots of the buffer pool a thread holds at each point of its code, and in what
order it may take them. `Safe` checks a piece of code, `Owns` ties what the threads hold to the
shared state, and every step keeps both. -/

namespace OsLab.Bank

open Code

variable {n : Nat}

/-- What a thread holds: permits of the semaphore, `pool_lock`, `tick_lock`, and account locks, the
last one taken first. While it holds a lock for writing, its last `fetch` may be `fresh`. -/
structure Held where
  permits : Nat
  pool : Bool
  tick : Bool
  locks : List (AccountId × LockMode)
  fresh : Option AccountId
deriving DecidableEq

namespace Held

def nothing : Held := ⟨0, false, false, [], none⟩

def Unlocked (h : Held) : Prop := h.pool = false ∧ h.tick = false ∧ h.locks = []

end Held

def PoolAction.Allowed (h : Held) : PoolAction → Prop
  | semWait => h.Unlocked ∧ h.permits ≤ 1
  | lock => h.Unlocked
  | semPost => h.Unlocked ∧ 0 < h.permits
  | _ => h.pool = true

def PoolAction.after (h : Held) : PoolAction → Held
  | semWait => { h with permits := h.permits + 1 }
  | lock => { h with pool := true }
  | unlock => { h with pool := false }
  | semPost => { h with permits := h.permits - 1 }
  | _ => h

def LockAction.Allowed (account : AccountId) (h : Held) : LockAction → Prop
  | rdlock => h.Unlocked
  | wrlock => h.pool = false ∧ h.tick = false ∧ ∀ l ∈ h.locks, l.1 < account
  | unlock mode => h.locks.head? = some (account, mode)

def LockAction.after (account : AccountId) (h : Held) : LockAction → Held
  | rdlock => { h with locks := (account, .read) :: h.locks }
  | wrlock => { h with locks := (account, .write) :: h.locks }
  | unlock _ => { h with locks := h.locks.tail, fresh := none }

def TickAction.Allowed (h : Held) : TickAction → Prop
  | lock => h.Unlocked
  | _ => h.tick = true

def TickAction.after (h : Held) : TickAction → Held
  | lock => { h with tick := true }
  | unlock => { h with tick := false }
  | read _ => h

def LedgerAction.Allowed (h : Held) : LedgerAction → Prop
  | fetch account => (account, .write) ∈ h.locks
  | store account _ => (account, .write) ∈ h.locks ∧ h.fresh = some account
  | read account => (account, .read) ∈ h.locks
  | addReserve _ => True

def LedgerAction.after (h : Held) : LedgerAction → Held
  | fetch account => { h with fresh := some account }
  | store _ _ => { h with fresh := none }
  | _ => h

def Action.Allowed (h : Held) : Action → Prop
  | pool action => action.Allowed h
  | rwlock account action => action.Allowed account h
  | tick action => action.Allowed h
  | ledger action => action.Allowed h
  | thread _ => True

def Action.after (h : Held) : Action → Held
  | pool action => action.after h
  | rwlock account action => action.after account h
  | tick action => action.after h
  | ledger action => action.after h
  | thread _ => h

/-- The code takes and gives back in order from `h` on, and holds nothing at the head of the loop
or when the thread returns. -/
def Safe : Code → Held → Prop
  | .loop, h => h = .nothing
  | .halt, h => h = .nothing
  | .act action next, h => action.Allowed h ∧ Safe next (action.after h)
  | .await _ next, h => (h.tick = true ∧ h.pool = false ∧ h.locks = []) ∧ Safe next h
  | .check account _ enough short, h => (account, .write) ∈ h.locks ∧ Safe enough h ∧ Safe short h

section Source

variable {next : Code} {h : Held}

@[simp] theorem safe_act (action : Action) (next : Code) (h : Held) :
    Safe (.act action next) h ↔ action.Allowed h ∧ Safe next (action.after h) := Iff.rfl

theorem safe_readTick (var : TickVar) (hh : h.Unlocked) (hnext : Safe next h) :
    Safe (readTick var next) h := by
  obtain ⟨permits, pool, tick, locks, fresh⟩ := h
  obtain ⟨rfl, rfl, rfl⟩ := hh
  exact ⟨⟨rfl, rfl, rfl⟩, rfl, rfl, hnext⟩

theorem safe_waitUntilTick (target : Target) (hh : h.Unlocked) (hnext : Safe next h) :
    Safe (waitUntilTick target next) h := by
  obtain ⟨permits, pool, tick, locks, fresh⟩ := h
  obtain ⟨rfl, rfl, rfl⟩ := hh
  exact ⟨⟨rfl, rfl, rfl⟩, ⟨rfl, rfl, rfl⟩, rfl, hnext⟩

theorem safe_loadAccount (account : AccountId) (hh : h.Unlocked) (hpermits : h.permits ≤ 1)
    (hnext : Safe next { h with permits := h.permits + 1 }) :
    Safe (loadAccount account next) h := by
  obtain ⟨permits, pool, tick, locks, fresh⟩ := h
  obtain ⟨rfl, rfl, rfl⟩ := hh
  exact ⟨⟨⟨rfl, rfl, rfl⟩, hpermits⟩, ⟨rfl, rfl, rfl⟩, rfl, rfl, rfl, hnext⟩

theorem safe_unloadAccount (account : AccountId) (hh : h.Unlocked) (hpermits : 0 < h.permits)
    (hnext : Safe next { h with permits := h.permits - 1 }) :
    Safe (unloadAccount account next) h := by
  obtain ⟨permits, pool, tick, locks, fresh⟩ := h
  obtain ⟨rfl, rfl, rfl⟩ := hh
  exact ⟨⟨rfl, rfl, rfl⟩, rfl, rfl, rfl, ⟨⟨rfl, rfl, rfl⟩, hpermits⟩, hnext⟩

end Source

/-- What a thread holds between the calls of `execute_transaction`. -/
def Held.slots (permits : Nat) : Held := ⟨permits, false, false, [], none⟩

theorem Held.slots_unlocked (permits : Nat) : (Held.slots permits).Unlocked := ⟨rfl, rfl, rfl⟩

section Source

variable {next onTrue onFalse : Code} {k : Nat}

theorem safe_getBalance (account : AccountId) (hnext : Safe next (.slots k)) :
    Safe (getBalance account next) (.slots k) :=
  ⟨Held.slots_unlocked k, List.mem_cons_self, rfl, hnext⟩

theorem safe_deposit (account : AccountId) (amount : Int) (hnext : Safe next (.slots k)) :
    Safe (deposit account amount next) (.slots k) :=
  ⟨⟨rfl, rfl, by simp [Held.slots]⟩, List.mem_cons_self, ⟨List.mem_cons_self, rfl⟩, rfl, trivial,
    hnext⟩

theorem safe_withdraw (account : AccountId) (amount : Int) (htrue : Safe onTrue (.slots k))
    (hfalse : Safe onFalse (.slots k)) :
    Safe (withdraw account amount onTrue onFalse) (.slots k) :=
  ⟨⟨rfl, rfl, by simp [Held.slots]⟩, List.mem_cons_self,
    ⟨List.mem_cons_self, ⟨List.mem_cons_self, rfl⟩, rfl, trivial, htrue⟩, rfl, hfalse⟩

theorem safe_locked {first second fromId toId : AccountId} (amount : Int) (hlt : first < second)
    (hfrom : fromId = second ∨ fromId = first) (hto : toId = second ∨ toId = first)
    (htrue : Safe onTrue (.slots k)) (hfalse : Safe onFalse (.slots k)) :
    Safe (rwlock first .wrlock <| rwlock second .wrlock <| .check fromId amount
      (ledger [.fetch fromId, .store fromId (-amount), .fetch toId, .store toId amount] <|
        rwlock second (.unlock .write) <| rwlock first (.unlock .write) onTrue)
      (rwlock second (.unlock .write) <| rwlock first (.unlock .write) onFalse)) (.slots k) := by
  have hmem : ∀ {x : AccountId}, x = second ∨ x = first →
      (x, LockMode.write) ∈ [(second, LockMode.write), (first, LockMode.write)] := by
    rintro x (rfl | rfl) <;> simp
  refine ⟨⟨rfl, rfl, by simp [Held.slots]⟩, ⟨rfl, rfl, ?_⟩, hmem hfrom, ?_, rfl, rfl, hfalse⟩
  · simpa [Action.after, LockAction.after, Held.slots] using hlt
  · exact ⟨hmem hfrom, ⟨hmem hfrom, rfl⟩, hmem hto, ⟨hmem hto, rfl⟩, rfl, rfl, htrue⟩

theorem safe_transfer (fromId toId : AccountId) (amount : Int) (htrue : Safe onTrue (.slots k))
    (hfalse : Safe onFalse (.slots k)) :
    Safe (transfer fromId toId amount onTrue onFalse) (.slots k) := by
  unfold transfer
  split_ifs with heq hlt
  · exact htrue
  · exact safe_locked amount hlt (.inr rfl) (.inl rfl) htrue hfalse
  · have hgt : toId < fromId := lt_of_le_of_ne (not_lt.mp hlt) (Ne.symm heq)
    exact safe_locked amount hgt (.inl rfl) (.inr rfl) htrue hfalse

theorem safe_abortTransaction : Safe abortTransaction (.slots 0) :=
  ⟨trivial, safe_readTick .actualEnd (Held.slots_unlocked 0) rfl⟩

theorem safe_commitTransaction : Safe commitTransaction (.slots 0) :=
  safe_readTick .actualEnd (Held.slots_unlocked 0) ⟨trivial, rfl⟩

theorem safe_executeTransaction (startTick : Int) : Safe (executeTransaction startTick) (.slots 0) :=
  safe_waitUntilTick _ (Held.slots_unlocked 0)
    (safe_readTick .actualStart (Held.slots_unlocked 0) ⟨trivial, rfl⟩)

theorem safe_finishOperation {unload : Code → Code} (hunload : Safe (unload .loop) (.slots k)) :
    Safe (finishOperation unload) (.slots k) :=
  safe_readTick .currentTick (Held.slots_unlocked k)
    ⟨trivial, safe_waitUntilTick .nextTick (Held.slots_unlocked k) hunload⟩

theorem safe_executeOperation (op : Operation) : Safe (executeOperation op) (.slots 0) := by
  have hload : ∀ {k account next}, k ≤ 1 → Safe next (.slots (k + 1)) →
      Safe (loadAccount account next) (.slots k) := fun hk hnext =>
    safe_loadAccount _ (Held.slots_unlocked _) hk hnext
  have hunload : ∀ {k account next}, Safe next (.slots k) →
      Safe (unloadAccount account next) (.slots (k + 1)) := fun hnext =>
    safe_unloadAccount _ (Held.slots_unlocked _) (Nat.succ_pos _) hnext
  refine safe_readTick .tickBefore (Held.slots_unlocked 0) ?_
  cases op.type with
  | deposit =>
    exact hload (by decide) (safe_deposit _ _ ⟨trivial, safe_finishOperation (hunload rfl)⟩)
  | withdraw =>
    refine hload (by decide) (safe_withdraw _ _ ⟨trivial, ?_⟩ ⟨trivial, ?_⟩)
    · exact safe_finishOperation (hunload rfl)
    · exact hunload safe_abortTransaction
  | transfer =>
    refine hload (by decide) (hload (by decide) (safe_transfer _ _ _ ⟨trivial, ?_⟩ ⟨trivial, ?_⟩))
    · exact safe_finishOperation (hunload (hunload rfl))
    · exact hunload (hunload safe_abortTransaction)
  | balance =>
    exact hload (by decide) (safe_getBalance _ ⟨trivial, safe_finishOperation (hunload rfl)⟩)

end Source

end OsLab.Bank
