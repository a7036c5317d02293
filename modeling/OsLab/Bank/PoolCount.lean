import OsLab.Bank.Deadlock

/-! The bookkeeping of the buffer pool. Between `sem_wait` and `sem_post` a thread has a permit that
is not yet, or no longer, a slot in use; between the two halves of a load or an unload the usage
counter is ahead of the slots. Where a thread is in its code says which of these it stands for. -/

namespace OsLab.Bank

open Interleaving State

variable {n : Nat}

namespace BufferPool

def accounts (pool : BufferPool n) : Multiset AccountId :=
  ∑ i, (pool.slots i).elim 0 fun account => {account}

def inUse (pool : BufferPool n) : Nat := (Finset.univ.filter fun i => pool.slots i ≠ none).card

theorem card_accounts (pool : BufferPool n) : pool.accounts.card = pool.inUse := by
  unfold accounts inUse
  rw [Multiset.card_sum, Finset.card_filter]
  apply Finset.sum_congr rfl
  intro i _
  cases pool.slots i <;> simp

theorem exists_free {pool : BufferPool n} (h : pool.inUse < bufferPoolSize) :
    ∃ i, pool.slots i = none := by
  by_contra hnone
  push Not at hnone
  unfold inUse at h
  rw [Finset.filter_true_of_mem fun i _ => hnone i, Finset.card_univ, Fintype.card_fin] at h
  exact lt_irrefl _ h

theorem exists_slot {pool : BufferPool n} {account : AccountId} (h : account ∈ pool.accounts) :
    ∃ i, pool.slots i = some account := by
  obtain ⟨i, _, hi⟩ := Multiset.mem_sum.mp h
  cases hslot : pool.slots i with
  | none => simp [hslot] at hi
  | some x =>
    rw [hslot, Option.elim_some, Multiset.mem_singleton] at hi
    exact ⟨i, by rw [hslot, hi]⟩

theorem slots_eq_none {pool : BufferPool n} (h : pool.accounts = 0) (i : Fin bufferPoolSize) :
    pool.slots i = none := by
  unfold accounts at h
  have hzero := (Finset.sum_eq_zero_iff.mp h) i (Finset.mem_univ i)
  cases hslot : pool.slots i with
  | none => rfl
  | some x => simp [hslot] at hzero

end BufferPool

theorem setFirst_eq {slots : Fin bufferPoolSize → Option AccountId} {old : Option AccountId}
    (h : ∃ i, slots i = old) (new : Option AccountId) :
    ∃ i, slots i = old ∧ setFirst slots old new = Function.update slots i new := by
  obtain ⟨i, hi⟩ := h
  unfold setFirst
  cases hfind : (List.finRange bufferPoolSize).find? fun i => decide (slots i = old) with
  | none => simpa [hi] using List.find?_eq_none.mp hfind i (List.mem_finRange i)
  | some j => exact ⟨j, by simpa using List.find?_some hfind, rfl⟩

theorem sum_setFirst {slots : Fin bufferPoolSize → Option AccountId} {old : Option AccountId}
    (h : ∃ i, slots i = old) (new : Option AccountId) :
    ∑ i, (setFirst slots old new i).elim 0 (fun x => ({x} : Multiset AccountId)) +
        old.elim 0 (fun x => {x}) =
      ∑ i, (slots i).elim 0 (fun x => {x}) + new.elim 0 fun x => {x} := by
  obtain ⟨i, hi, heq⟩ := setFirst_eq h new
  rw [heq, ← hi]
  exact sum_update (fun o : Option AccountId => o.elim 0 fun x => ({x} : Multiset AccountId)) slots i new

/-- `taking` is after `sem_wait` and before `counted`, where the load is counted but has no slot yet.
At `uncounted` the unload is counted but the slot not yet free, and `posting` is after that. -/
inductive Place where
  | outside
  | taking
  | counted
  | uncounted
  | posting
deriving DecidableEq

namespace Place

def takes : Place → Nat
  | taking | counted => 1
  | _ => 0

def posts : Place → Nat
  | posting => 1
  | _ => 0

def ahead : Place → Int
  | counted => 1
  | uncounted => -1
  | _ => 0

end Place

namespace Code

def place : Code → Place
  | act (.pool .lock) (act (.pool .countLoad) _) => .taking
  | act (.pool .countLoad) _ => .taking
  | act (.pool (.takeSlot _)) _ => .counted
  | act (.pool (.freeSlot _)) _ => .uncounted
  | act (.pool .unlock) (act (.pool .semPost) _) => .posting
  | act (.pool .semPost) _ => .posting
  | _ => .outside

end Code

def PoolAction.Leads : PoolAction → Place → Place → Prop
  | semWait, p, q => p = .outside ∧ q = .taking
  | countLoad, p, q => p = .taking ∧ q = .counted
  | takeSlot _, p, q => p = .counted ∧ q = .outside
  | countUnload, p, q => p = .outside ∧ q = .uncounted
  | freeSlot _, p, q => p = .uncounted ∧ q = .posting
  | semPost, p, q => p = .posting ∧ q = .outside
  | _, p, q => p = q

def PoolAction.share (m : Multiset AccountId) : PoolAction → Multiset AccountId
  | takeSlot account => account ::ₘ m
  | freeSlot account => m.erase account
  | _ => m

def PoolAction.Owned (m : Multiset AccountId) : PoolAction → Prop
  | freeSlot account => account ∈ m
  | _ => True

namespace Code

/-- The code unloads what the thread has loaded, `m`, and what it loads itself. -/
def Pooled : Code → Multiset AccountId → Prop
  | loop, m => m = 0
  | halt, m => m = 0
  | act (.pool action) next, m =>
    action.Leads (act (.pool action) next).place next.place ∧ action.Owned m ∧
      next.Pooled (action.share m)
  | act _ next, m => next.place = .outside ∧ next.Pooled m
  | await _ next, m => next.place = .outside ∧ next.Pooled m
  | check _ _ enough short, m =>
    (enough.place = .outside ∧ enough.Pooled m) ∧ short.place = .outside ∧ short.Pooled m

def Outside (c : Code) (m : Multiset AccountId) : Prop := c.place = .outside ∧ c.Pooled m

section Source

variable {next onTrue onFalse : Code} {m : Multiset AccountId} {account : AccountId}

theorem outside_loop : Outside loop 0 := ⟨rfl, rfl⟩

theorem outside_halt : Outside halt 0 := ⟨rfl, rfl⟩

theorem outside_tick (actions : List TickAction) (h : next.Outside m) :
    (tick actions next).Outside m := by
  induction actions with
  | nil => exact h
  | cons a actions ih => exact ⟨rfl, ih⟩

theorem outside_ledger (actions : List LedgerAction) (h : next.Outside m) :
    (ledger actions next).Outside m := by
  induction actions with
  | nil => exact h
  | cons a actions ih => exact ⟨rfl, ih⟩

theorem outside_rwlock (account : AccountId) (action : LockAction) (h : next.Outside m) :
    (rwlock account action next).Outside m := ⟨rfl, h⟩

theorem outside_thread (action : LocalAction) (h : next.Outside m) :
    (thread action next).Outside m := ⟨rfl, h⟩

theorem outside_check {amount : Int} (htrue : onTrue.Outside m) (hfalse : onFalse.Outside m) :
    (check account amount onTrue onFalse).Outside m := ⟨rfl, htrue, hfalse⟩

theorem outside_waitUntilTick (target : Target) (h : next.Outside m) :
    (waitUntilTick target next).Outside m :=
  outside_tick [.lock] ⟨rfl, outside_tick [.unlock] h⟩

theorem outside_loadAccount (h : next.Outside (account ::ₘ m)) :
    (loadAccount account next).Outside m := by
  have hunlock : (pool [.unlock] next).place = .outside := by
    obtain ⟨hplace, _⟩ := h
    revert hplace
    unfold pool place
    simp only [List.foldr]
    split <;> simp_all
  exact ⟨rfl, ⟨rfl, rfl⟩, trivial, rfl, trivial, ⟨rfl, rfl⟩, trivial, ⟨rfl, hunlock⟩, trivial,
    hunlock.trans h.1.symm, trivial, h.2⟩

theorem outside_unloadAccount (h : next.Outside m) :
    (unloadAccount account next).Outside (account ::ₘ m) := by
  refine ⟨rfl, rfl, trivial, ⟨rfl, rfl⟩, trivial, ⟨rfl, rfl⟩, Multiset.mem_cons_self account m, ?_⟩
  show Pooled _ ((account ::ₘ m).erase account)
  rw [Multiset.erase_cons_head]
  exact ⟨rfl, trivial, ⟨rfl, h.1⟩, trivial, h.2⟩

theorem outside_finishOperation {unload : Code → Code} (h : (unload loop).Outside m) :
    (finishOperation unload).Outside m :=
  outside_tick _ (outside_thread _ (outside_waitUntilTick _ h))

theorem outside_abortTransaction : abortTransaction.Outside 0 :=
  outside_thread _ (outside_tick _ outside_halt)

theorem outside_commitTransaction : commitTransaction.Outside 0 :=
  outside_tick _ (outside_thread _ outside_halt)

theorem outside_executeTransaction (startTick : Int) : (executeTransaction startTick).Outside 0 :=
  outside_waitUntilTick _ (outside_tick _ (outside_thread _ outside_loop))

theorem outside_getBalance (h : next.Outside m) : (getBalance account next).Outside m :=
  outside_rwlock _ _ (outside_ledger _ (outside_rwlock _ _ h))

theorem outside_deposit (amount : Int) (h : next.Outside m) :
    (deposit account amount next).Outside m :=
  outside_rwlock _ _ (outside_ledger _ (outside_rwlock _ _ (outside_ledger _ h)))

theorem outside_withdraw (amount : Int) (htrue : onTrue.Outside m) (hfalse : onFalse.Outside m) :
    (withdraw account amount onTrue onFalse).Outside m := by
  apply outside_rwlock
  apply outside_check
  · exact outside_ledger _ (outside_rwlock _ _ (outside_ledger _ htrue))
  · exact outside_rwlock _ _ hfalse

theorem outside_transfer (fromId toId : AccountId) (amount : Int) (htrue : onTrue.Outside m)
    (hfalse : onFalse.Outside m) : (transfer fromId toId amount onTrue onFalse).Outside m := by
  unfold transfer
  split_ifs
  · exact htrue
  all_goals
    apply outside_rwlock
    apply outside_rwlock
    apply outside_check
    · exact outside_ledger _ (outside_rwlock _ _ (outside_rwlock _ _ htrue))
    · exact outside_rwlock _ _ (outside_rwlock _ _ hfalse)

/-- A transfer gives its slots back in the order of the accounts when it fails, and in the opposite
order when it succeeds; for one from an account to itself both are the same account. -/
theorem outside_executeOperation (op : Operation) : (executeOperation op).Outside 0 := by
  unfold executeOperation
  apply outside_tick
  cases op.type with
  | deposit =>
    apply outside_loadAccount
    apply outside_deposit
    exact outside_thread _ (outside_finishOperation (outside_unloadAccount outside_loop))
  | withdraw =>
    apply outside_loadAccount
    apply outside_withdraw
    · exact outside_thread _ (outside_finishOperation (outside_unloadAccount outside_loop))
    · exact outside_thread _ (outside_unloadAccount outside_abortTransaction)
  | transfer =>
    apply outside_loadAccount
    apply outside_loadAccount
    apply outside_transfer
    · apply outside_thread
      apply outside_finishOperation
      exact outside_unloadAccount (outside_unloadAccount outside_loop)
    · apply outside_thread
      rw [Multiset.cons_swap]
      exact outside_unloadAccount (outside_unloadAccount outside_abortTransaction)
  | balance =>
    apply outside_loadAccount
    apply outside_getBalance
    exact outside_thread _ (outside_finishOperation (outside_unloadAccount outside_loop))

end Source

end Code

def State.place (s : State n) (t : Fin n) : Place := (s.threads t).code.place

/-- The counters of the pool agree with its slots, with what the threads have loaded, and with where
they are. -/
structure PoolCounted (s : State n) (share : Fin n → Multiset AccountId) : Prop where
  semaphore : s.pool.emptySlots + ∑ t, (s.place t).takes + s.pool.inUse +
    ∑ t, (s.place t).posts = bufferPoolSize
  usage : s.pool.currentUsage = s.pool.inUse + ∑ t, (s.place t).ahead
  totals : s.pool.currentUsage = s.pool.totalLoads - s.pool.totalUnloads
  slots : s.pool.accounts = ∑ t, share t
  pooled : ∀ t, (s.threads t).code.Pooled (share t)

section Steps

variable {s s' : State n} {share : Fin n → Multiset AccountId} {t : Fin n} {th : Thread}
variable {m : Multiset AccountId}

theorem PoolCounted.setThread (h : PoolCounted s share) (hthreads : s'.threads = s.threads)
    (hsemaphore : s'.pool.emptySlots + th.code.place.takes + s'.pool.inUse + th.code.place.posts =
      s.pool.emptySlots + (s.place t).takes + s.pool.inUse + (s.place t).posts)
    (husage : s'.pool.currentUsage - s'.pool.inUse - th.code.place.ahead =
      s.pool.currentUsage - s.pool.inUse - (s.place t).ahead)
    (htotals : s'.pool.currentUsage = s'.pool.totalLoads - s'.pool.totalUnloads)
    (hslots : s'.pool.accounts + share t = s.pool.accounts + m) (hpooled : th.code.Pooled m) :
    PoolCounted (s'.setThread t th) (Function.update share t m) := by
  have hplace : (s'.setThread t th).place = Function.update s.place t th.code.place := by
    funext u
    rw [State.place, setThread_threads, hthreads]
    rcases eq_or_ne u t with rfl | hu
    · rw [Function.update_self, Function.update_self]
    · rw [Function.update_of_ne hu, Function.update_of_ne hu]
      rfl
  refine ⟨?_, ?_, htotals, ?_, fun u => ?_⟩
  · -- only the summand of `t` differs in the two sums
    have htakes := sum_update Place.takes s.place t th.code.place
    have hposts := sum_update Place.posts s.place t th.code.place
    have hold := h.semaphore
    rw [hplace]
    simp only [setThread_pool]
    omega
  · have hahead := sum_update Place.ahead s.place t th.code.place
    have hold := h.usage
    rw [hplace]
    simp only [setThread_pool]
    omega
  · have hshare := sum_update id share t m
    simp only [id] at hshare
    rw [h.slots, ← hshare] at hslots
    exact add_right_cancel hslots
  · rw [setThread_threads, hthreads]
    rcases eq_or_ne u t with rfl | hu
    · simpa only [Function.update_self] using hpooled
    · simpa only [Function.update_of_ne hu] using h.pooled u

theorem PoolCounted.goto (h : PoolCounted s share) (hthreads : s'.threads = s.threads)
    (hpool : s'.pool = s.pool) (hplace : s.place t = .outside) (hnext : th.code.Outside (share t)) :
    PoolCounted (s'.setThread t th) (Function.update share t (share t)) :=
  h.setThread hthreads (by rw [hpool, hplace, hnext.1]) (by rw [hpool, hplace, hnext.1])
    (hpool ▸ h.totals) (by rw [hpool]) hnext.2

theorem PoolCounted.exists_free (h : PoolCounted s share) (hplace : s.place t = .counted) :
    ∃ i, s.pool.slots i = none := by
  apply BufferPool.exists_free
  have hone : (s.place t).takes ≤ ∑ u, (s.place u).takes :=
    Finset.single_le_sum (f := fun u => (s.place u).takes) (fun _ _ => Nat.zero_le _)
      (Finset.mem_univ t)
  have hsemaphore := h.semaphore
  rw [hplace, show Place.counted.takes = 1 from rfl] at hone
  omega

theorem PoolCounted.exists_slot (h : PoolCounted s share) {account : AccountId}
    (hshare : account ∈ share t) : ∃ i, s.pool.slots i = some account := by
  apply BufferPool.exists_slot
  rw [h.slots]
  exact Multiset.mem_sum.mpr ⟨t, Finset.mem_univ t, hshare⟩

theorem accounts_takeSlot {pool pool' : BufferPool n} {account : AccountId}
    (hfree : ∃ i, pool.slots i = none)
    (hp : (PoolAction.takeSlot account).perform t pool = some pool') :
    pool'.accounts = account ::ₘ pool.accounts := by
  obtain rfl := Option.some.inj hp
  have hsum := sum_setFirst hfree (some account)
  rw [Option.elim_none, add_zero, Option.elim_some, add_comm, Multiset.singleton_add] at hsum
  exact hsum

theorem accounts_freeSlot {pool pool' : BufferPool n} {account : AccountId}
    (hslot : ∃ i, pool.slots i = some account)
    (hp : (PoolAction.freeSlot account).perform t pool = some pool') :
    account ::ₘ pool'.accounts = pool.accounts := by
  obtain rfl := Option.some.inj hp
  have hsum := sum_setFirst hslot none
  rw [Option.elim_none, add_zero, Option.elim_some, add_comm, Multiset.singleton_add] at hsum
  exact hsum

theorem inUse_congr {pool pool' : BufferPool n} (h : pool'.slots = pool.slots) :
    pool'.inUse = pool.inUse := by rw [BufferPool.inUse, BufferPool.inUse, h]

theorem accounts_congr {pool pool' : BufferPool n} (h : pool'.slots = pool.slots) :
    pool'.accounts = pool.accounts := by rw [BufferPool.accounts, BufferPool.accounts, h]

theorem PoolCounted.keepSlots (h : PoolCounted s share) {pool' : BufferPool n} {next : Code}
    (hslots : pool'.slots = s.pool.slots)
    (hsemaphore : pool'.emptySlots + next.place.takes + next.place.posts =
      s.pool.emptySlots + (s.place t).takes + (s.place t).posts)
    (husage : pool'.currentUsage - next.place.ahead = s.pool.currentUsage - (s.place t).ahead)
    (htotals : pool'.currentUsage = pool'.totalLoads - pool'.totalUnloads)
    (hpooled : next.Pooled (share t)) :
    PoolCounted (State.setThread { s with pool := pool' } t { s.threads t with code := next })
      (Function.update share t (share t)) := by
  have hinUse := inUse_congr hslots
  have hthreads : ({ s with pool := pool' } : State n).threads = s.threads := rfl
  apply h.setThread hthreads
  · dsimp only
    omega
  · dsimp only
    omega
  · exact htotals
  · dsimp only
    rw [accounts_congr hslots]
  · exact hpooled

structure BufferPool.SameCounters (pool pool' : BufferPool n) : Prop where
  emptySlots : pool'.emptySlots = pool.emptySlots
  currentUsage : pool'.currentUsage = pool.currentUsage
  totalLoads : pool'.totalLoads = pool.totalLoads
  totalUnloads : pool'.totalUnloads = pool.totalUnloads

theorem PoolCounted.takeSlot (h : PoolCounted s share) {pool' : BufferPool n} {next : Code}
    {account : AccountId} (hsame : s.pool.SameCounters pool')
    (haccounts : pool'.accounts = account ::ₘ s.pool.accounts) (hplace : s.place t = .counted)
    (hnext : next.place = .outside) (hpooled : next.Pooled (account ::ₘ share t)) :
    PoolCounted (State.setThread { s with pool := pool' } t { s.threads t with code := next })
      (Function.update share t (account ::ₘ share t)) := by
  obtain ⟨hempty, husage, hloads, hunloads⟩ := hsame
  have htotals : pool'.currentUsage = pool'.totalLoads - pool'.totalUnloads := by
    rw [husage, hloads, hunloads, h.totals]
  have hthreads : ({ s with pool := pool' } : State n).threads = s.threads := rfl
  have hcard := congrArg Multiset.card haccounts
  rw [Multiset.card_cons, pool'.card_accounts, s.pool.card_accounts] at hcard
  apply h.setThread hthreads _ _ htotals _ hpooled
  · rw [hplace, hnext]
    show pool'.emptySlots + 0 + pool'.inUse + 0 = s.pool.emptySlots + 1 + s.pool.inUse + 0
    omega
  · rw [hplace, hnext]
    show pool'.currentUsage - pool'.inUse - 0 = s.pool.currentUsage - s.pool.inUse - 1
    omega
  · dsimp only
    rw [haccounts, Multiset.cons_add, Multiset.add_cons]

theorem PoolCounted.freeSlot (h : PoolCounted s share) {pool' : BufferPool n} {next : Code}
    {account : AccountId} (hsame : s.pool.SameCounters pool')
    (haccounts : account ::ₘ pool'.accounts = s.pool.accounts) (howned : account ∈ share t)
    (hplace : s.place t = .uncounted) (hnext : next.place = .posting)
    (hpooled : next.Pooled ((share t).erase account)) :
    PoolCounted (State.setThread { s with pool := pool' } t { s.threads t with code := next })
      (Function.update share t ((share t).erase account)) := by
  obtain ⟨hempty, husage, hloads, hunloads⟩ := hsame
  have htotals : pool'.currentUsage = pool'.totalLoads - pool'.totalUnloads := by
    rw [husage, hloads, hunloads, h.totals]
  have hthreads : ({ s with pool := pool' } : State n).threads = s.threads := rfl
  have hcard := congrArg Multiset.card haccounts
  rw [Multiset.card_cons, pool'.card_accounts, s.pool.card_accounts] at hcard
  apply h.setThread hthreads _ _ htotals _ hpooled
  · rw [hplace, hnext]
    show pool'.emptySlots + 0 + pool'.inUse + 1 = s.pool.emptySlots + 0 + s.pool.inUse + 0
    omega
  · rw [hplace, hnext]
    show pool'.currentUsage - pool'.inUse - 0 = s.pool.currentUsage - s.pool.inUse - -1
    omega
  · dsimp only
    rw [← haccounts, Multiset.cons_add, ← Multiset.add_cons, Multiset.cons_erase howned]

theorem PoolCounted.poolAction (h : PoolCounted s share) {a : PoolAction} {next : Code}
    {pool' : BufferPool n} (hcode : (s.threads t).code = .act (.pool a) next)
    (hp : a.perform t s.pool = some pool') :
    PoolCounted (State.setThread { s with pool := pool' } t { s.threads t with code := next })
      (Function.update share t (a.share (share t))) := by
  have hpooled := h.pooled t
  have hplace : s.place t = (Code.act (.pool a) next).place := congrArg Code.place hcode
  rw [hcode] at hpooled
  obtain ⟨hleads, howned, hnext⟩ := hpooled
  rw [← hplace] at hleads
  have htotals := h.totals
  cases a with
  | semWait =>
    rw [PoolAction.perform] at hp
    split_ifs at hp with hempty
    obtain rfl := Option.some.inj hp
    refine h.keepSlots rfl ?_ ?_ htotals hnext
    · rw [hleads.1, hleads.2]
      show s.pool.emptySlots - 1 + 1 + 0 = s.pool.emptySlots + 0 + 0
      omega
    · rw [hleads.1, hleads.2]
      rfl
  | lock =>
    have hsame : s.place t = next.place := hleads
    rw [PoolAction.perform] at hp
    split_ifs at hp
    obtain rfl := Option.some.inj hp
    exact h.keepSlots rfl (by rw [hsame]) (by rw [hsame]) htotals hnext
  | unlock =>
    have hsame : s.place t = next.place := hleads
    obtain rfl := Option.some.inj hp
    exact h.keepSlots rfl (by rw [hsame]) (by rw [hsame]) htotals hnext
  | countLoad =>
    obtain rfl := Option.some.inj hp
    refine h.keepSlots rfl ?_ ?_ ?_ hnext
    · rw [hleads.1, hleads.2]
      rfl
    · rw [hleads.1, hleads.2]
      show s.pool.currentUsage + 1 - 1 = s.pool.currentUsage - 0
      omega
    · dsimp only
      omega
  | countUnload =>
    obtain rfl := Option.some.inj hp
    refine h.keepSlots rfl ?_ ?_ ?_ hnext
    · rw [hleads.1, hleads.2]
      rfl
    · rw [hleads.1, hleads.2]
      show s.pool.currentUsage - 1 - -1 = s.pool.currentUsage - 0
      omega
    · dsimp only
      omega
  | semPost =>
    obtain rfl := Option.some.inj hp
    refine h.keepSlots rfl ?_ ?_ htotals hnext
    · rw [hleads.1, hleads.2]
      rfl
    · rw [hleads.1, hleads.2]
      rfl
  | takeSlot account =>
    have haccounts := accounts_takeSlot (h.exists_free hleads.1) hp
    obtain rfl := Option.some.inj hp
    exact h.takeSlot ⟨rfl, rfl, rfl, rfl⟩ haccounts hleads.1 hleads.2 hnext
  | freeSlot account =>
    have haccounts := accounts_freeSlot (h.exists_slot howned) hp
    obtain rfl := Option.some.inj hp
    exact h.freeSlot ⟨rfl, rfl, rfl, rfl⟩ haccounts howned hleads.1 hleads.2 hnext

def State.poolAction? (s : State n) : Party n → Option PoolAction
  | .timer => none
  | .thread t =>
    match s.nextAction t with
    | some (.pool a) => some a
    | _ => none

theorem PoolCounted.moves (h : PoolCounted s share) (hm : s.Moves t s') :
    (∃ a next, (s.threads t).code = .act (.pool a) next ∧
      a.perform t s.pool = some s'.pool ∧
      PoolCounted s' (Function.update share t (a.share (share t)))) ∨
    (s.poolAction? (.thread t) = none ∧ s'.pool = s.pool ∧
      PoolCounted s' (Function.update share t (share t))) := by
  have hpooled := h.pooled t
  have hnext : s.nextAction t = (s.threads t).code.action? := rfl
  have hplace : s.place t = (s.threads t).code.place := rfl
  cases hm with
  | commit hcode hops =>
    rw [hcode] at hpooled hnext hplace
    refine .inr ⟨by rw [poolAction?, hnext]; rfl, rfl, h.goto rfl rfl hplace ?_⟩
    rw [show share t = 0 from hpooled]
    exact Code.outside_commitTransaction
  | begin op ops hcode hops =>
    rw [hcode] at hpooled hnext hplace
    refine .inr ⟨by rw [poolAction?, hnext]; rfl, rfl, h.goto rfl rfl hplace ?_⟩
    rw [show share t = 0 from hpooled]
    exact Code.outside_executeOperation op
  | act a next s₁ th hcode hp =>
    -- an action elsewhere happens only outside of a load or an unload
    by_cases hpool : ∃ b, a = .pool b
    · obtain ⟨b, rfl⟩ := hpool
      obtain ⟨pool', hpart, heq⟩ := Option.map_eq_some_iff.mp hp
      obtain ⟨rfl, rfl⟩ := Prod.mk.inj heq
      exact .inl ⟨b, next, hcode, hpart, h.poolAction hcode hpart⟩
    · rw [hcode] at hpooled hnext hplace
      have hkept : s₁.pool = s.pool := (perform_frame hp).1 fun b hb => hpool ⟨b, hb⟩
      have houtside : next.Outside (share t) ∧ s.place t = .outside ∧
          s.poolAction? (.thread t) = none := by
        rw [poolAction?, hnext, hplace]
        cases a with
        | pool b => exact absurd ⟨b, rfl⟩ hpool
        | _ => exact ⟨hpooled, rfl, rfl⟩
      refine .inr ⟨houtside.2.2, hkept, ?_⟩
      exact h.goto (perform_eq_some hp).1 hkept houtside.2.1 houtside.1
  | wait target next hcode hlt =>
    rw [hcode] at hpooled hnext hplace
    refine .inr ⟨by rw [poolAction?, hnext]; rfl, rfl, ?_⟩
    exact PoolCounted.goto h rfl rfl hplace
      ⟨rfl, rfl, hpooled⟩
  | proceed target next hcode hle =>
    rw [hcode] at hpooled hnext hplace
    exact .inr ⟨by rw [poolAction?, hnext]; rfl, rfl, h.goto rfl rfl hplace hpooled⟩
  | short x amount enough short hcode hlt =>
    rw [hcode] at hpooled hnext hplace
    exact .inr ⟨by rw [poolAction?, hnext]; rfl, rfl, h.goto rfl rfl hplace hpooled.2⟩
  | enough x amount enough short hcode hle =>
    rw [hcode] at hpooled hnext hplace
    exact .inr ⟨by rw [poolAction?, hnext]; rfl, rfl, h.goto rfl rfl hplace hpooled.1⟩

theorem PoolCounted.accounts_eq (h : PoolCounted s share)
    (h' : PoolCounted s' (Function.update share t m)) :
    s'.pool.accounts + share t = s.pool.accounts + m := by
  have hsum := sum_update id share t m
  simp only [id] at hsum
  rw [h.slots, h'.slots, hsum]

end Steps

def PoolAction.loaded? : PoolAction → Option AccountId
  | takeSlot account => some account
  | _ => none

def PoolAction.unloaded? : PoolAction → Option AccountId
  | freeSlot account => some account
  | _ => none

def loaded (actions : List PoolAction) : Multiset AccountId :=
  Multiset.ofList (actions.filterMap PoolAction.loaded?)

def unloaded (actions : List PoolAction) : Multiset AccountId :=
  Multiset.ofList (actions.filterMap PoolAction.unloaded?)

theorem loaded_concat (actions : List PoolAction) (a : PoolAction) :
    loaded (actions ++ [a]) = loaded actions + a.loaded?.elim 0 fun x => {x} := by
  unfold loaded
  rw [List.filterMap_append, ← Multiset.coe_add]
  cases h : a.loaded? <;> simp [h]

theorem unloaded_concat (actions : List PoolAction) (a : PoolAction) :
    unloaded (actions ++ [a]) = unloaded actions + a.unloaded?.elim 0 fun x => {x} := by
  unfold unloaded
  rw [List.filterMap_append, ← Multiset.coe_add]
  cases h : a.unloaded? <;> simp [h]

def PoolLogged (s : State n) (actions : List PoolAction) : Prop :=
  s.pool.accounts + unloaded actions = loaded actions

section Runs

variable {s s' : State n} {share : Fin n → Multiset AccountId} {t : Fin n}

theorem PoolLogged.step {actions : List PoolAction} {a : PoolAction} (h : PoolLogged s actions)
    (howned : a.Owned (share t))
    (haccounts : s'.pool.accounts + share t = s.pool.accounts + a.share (share t)) :
    PoolLogged s' (actions ++ [a]) := by
  have hchange : s'.pool.accounts + a.unloaded?.elim 0 (fun x => {x}) =
      s.pool.accounts + a.loaded?.elim 0 fun x => {x} := by
    cases a with
    | takeSlot x =>
      rw [PoolAction.share, ← Multiset.singleton_add, ← add_assoc] at haccounts
      rw [show (PoolAction.takeSlot x).unloaded? = none from rfl, Option.elim_none, add_zero]
      exact add_right_cancel haccounts
    | freeSlot x =>
      rw [PoolAction.share] at haccounts
      rw [show (PoolAction.freeSlot x).loaded? = none from rfl, Option.elim_none, add_zero]
      show s'.pool.accounts + {x} = s.pool.accounts
      apply add_right_cancel (b := (share t).erase x)
      rw [← haccounts, add_assoc, Multiset.singleton_add, Multiset.cons_erase howned]
    | _ => exact congrArg (· + 0) (add_right_cancel haccounts)
  unfold PoolLogged at h ⊢
  rw [loaded_concat, unloaded_concat, ← h, add_left_comm, hchange]
  abel

theorem PoolCounted.step (h : PoolCounted s share) {party : Party n} (hs : s.step party = some s')
    {actions : List PoolAction} (hlogged : PoolLogged s actions) :
    ∃ share', PoolCounted s' share' ∧
      PoolLogged s' (actions ++ (s.poolAction? party).toList) := by
  cases party with
  | timer =>
    obtain ⟨_, _, rfl⟩ := Option.map_eq_some_iff.mp hs
    refine ⟨share, ⟨h.semaphore, h.usage, h.totals, h.slots, h.pooled⟩, ?_⟩
    rw [poolAction?, Option.toList_none, List.append_nil]
    exact hlogged
  | thread t =>
    rcases h.moves (threadStep_moves hs) with ⟨a, next, hcode, _, hcounted⟩ | ⟨hnone, hpool, hcounted⟩
    · have hnext : s.poolAction? (.thread t) = some a := by
        simp only [poolAction?, nextAction, hcode, Code.action?]
      have howned := h.pooled t
      rw [hcode] at howned
      rw [hnext]
      exact ⟨_, hcounted, hlogged.step howned.2.1 (h.accounts_eq hcounted)⟩
    · refine ⟨_, hcounted, ?_⟩
      rw [hnone, Option.toList_none, List.append_nil, PoolLogged, hpool]
      exact hlogged

theorem Owns.ahead_eq_zero {held : Fin n → Held} (h : Owns s held) (hfree : s.pool.poolLock = none)
    (t : Fin n) : (s.place t).ahead = 0 := by
  have hpool : (held t).pool = false := by
    cases hheld : (held t).pool with
    | false => rfl
    | true => simpa [hfree] using (h.pool.lock t).mpr hheld
  have hsafe := h.safe t
  rw [State.place]
  unfold Code.place
  split
  all_goals try rfl
  all_goals
    rename_i hcode
    rw [hcode] at hsafe
    exact absurd (hpool.symm.trans hsafe.1) Bool.false_ne_true

def State.taking (s : State n) : Finset (Fin n) :=
  Finset.univ.filter fun t => (s.place t).takes = 1

def State.posting (s : State n) : Finset (Fin n) :=
  Finset.univ.filter fun t => (s.place t).posts = 1

theorem card_taking (s : State n) : s.taking.card = ∑ t, (s.place t).takes := by
  rw [State.taking, Finset.card_filter]
  apply Finset.sum_congr rfl
  intro t _
  cases s.place t <;> rfl

theorem card_posting (s : State n) : s.posting.card = ∑ t, (s.place t).posts := by
  rw [State.posting, Finset.card_filter]
  apply Finset.sum_congr rfl
  intro t _
  cases s.place t <;> rfl

theorem initialState_poolCounted (ledger : Ledger) (txs : Fin n → Transaction) :
    PoolCounted (initialState ledger txs) fun _ => 0 := by
  have haccounts : (initialState ledger txs).pool.accounts = 0 := Finset.sum_eq_zero fun _ _ => rfl
  have hinUse : (initialState ledger txs).pool.inUse = 0 := by
    rw [← BufferPool.card_accounts, haccounts, Multiset.card_zero]
  have hplace : ∀ t, (initialState ledger txs).place t = .outside := fun t =>
    (Code.outside_executeTransaction (txs t).startTick).1
  refine ⟨?_, ?_, rfl, ?_, fun t => (Code.outside_executeTransaction (txs t).startTick).2⟩
  · simp only [hplace, hinUse, Place.takes, Place.posts, Finset.sum_const_zero]
    rfl
  · simp only [hplace, hinUse, Place.ahead, Finset.sum_const_zero]
    rfl
  · rw [haccounts, Finset.sum_const_zero]

def poolTrace (is : List (Party n)) (s : State n) : List PoolAction :=
  trace State.poolAction? step is s

theorem reaches_pool_logged {ledger : Ledger} {txs : Fin n → Transaction} {is : List (Party n)}
    (h : runSchedule State.step is (initialState ledger txs) = some s) :
    (∃ share, PoolCounted s share) ∧ PoolLogged s (poolTrace is (initialState ledger txs)) := by
  apply trace_invariant (fun s actions => (∃ share, PoolCounted s share) ∧ PoolLogged s actions) _ h
  · refine ⟨⟨_, initialState_poolCounted ledger txs⟩, ?_⟩
    show (initialState ledger txs).pool.accounts + 0 = 0
    rw [add_zero, (initialState_poolCounted ledger txs).slots, Finset.sum_const_zero]
  · rintro a actions i b hb ⟨⟨_, ha⟩, hlogged⟩
    obtain ⟨share', hcounted, hlogged⟩ := ha.step hb hlogged
    exact ⟨⟨share', hcounted⟩, hlogged⟩

end Runs

/-- The semaphore, the counters and the slots of the pool in every state of every run: each permit is
with the semaphore, with a thread on its way to or from a slot, or stands for a slot in use. -/
theorem reaches_pool_counted {ledger : Ledger} {txs : Fin n → Transaction} {s : State n}
    {is : List (Party n)} (h : runSchedule step is (initialState ledger txs) = some s) :
    s.pool.emptySlots + s.taking.card + s.pool.inUse + s.posting.card = bufferPoolSize ∧
    (s.pool.poolLock = none →
      s.pool.currentUsage = s.pool.inUse ∧ s.pool.inUse ≤ bufferPoolSize ∧
      s.pool.currentUsage = s.pool.totalLoads - s.pool.totalUnloads ∧
      s.pool.accounts + unloaded (poolTrace is (initialState ledger txs)) =
        loaded (poolTrace is (initialState ledger txs))) ∧
    (∀ t x, s.nextAction t = some (.pool (.takeSlot x)) → ∃ i, s.pool.slots i = none) ∧
    (∀ t x, s.nextAction t = some (.pool (.freeSlot x)) → ∃ i, s.pool.slots i = some x) ∧
    ((∀ t, s.Finished t) →
      (∀ i, s.pool.slots i = none) ∧ s.pool.emptySlots = bufferPoolSize) := by
  obtain ⟨held, howns⟩ := reaches_owns (reaches_of_runSchedule h)
  obtain ⟨⟨share, hcounted⟩, hlogged⟩ := reaches_pool_logged h
  have hsemaphore := hcounted.semaphore
  refine ⟨?_, ?_, ?_, ?_, ?_⟩
  · rw [card_taking, card_posting]
    exact hsemaphore
  · intro hfree
    have husage := hcounted.usage
    rw [Finset.sum_eq_zero fun t _ => howns.ahead_eq_zero hfree t, add_zero] at husage
    exact ⟨husage, by omega, hcounted.totals, hlogged⟩
  · intro t x ht
    obtain ⟨next, hcode⟩ := nextAction_eq_some.mp ht
    exact hcounted.exists_free (congrArg Code.place hcode)
  · intro t x ht
    obtain ⟨next, hcode⟩ := nextAction_eq_some.mp ht
    have hpooled := hcounted.pooled t
    rw [hcode] at hpooled
    exact hcounted.exists_slot hpooled.2.1
  · intro hend
    have hplace : ∀ t, s.place t = .outside := fun t => congrArg Code.place (hend t)
    have hshare : ∀ t, share t = 0 := fun t => by
      have hpooled := hcounted.pooled t
      rw [hend t] at hpooled
      exact hpooled
    have haccounts : s.pool.accounts = 0 := by
      rw [hcounted.slots, Finset.sum_eq_zero fun t _ => hshare t]
    have hinUse : s.pool.inUse = 0 := by
      rw [← BufferPool.card_accounts, haccounts, Multiset.card_zero]
    refine ⟨BufferPool.slots_eq_none haccounts, ?_⟩
    simpa [hplace, hinUse, Place.takes, Place.posts] using hsemaphore

theorem reaches_pool_counted_sample :
    ∃ s : State 2, (∀ t, s.Finished t) ∧ (∀ i, s.pool.slots i = none) ∧
      s.pool.emptySlots = bufferPoolSize := by
  obtain ⟨s, hs, hend⟩ := sampleSchedule_finished
  exact ⟨s, hend, (reaches_pool_counted hs).2.2.2.2 hend⟩

end OsLab.Bank
