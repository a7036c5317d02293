import OsLab.Bank.Abort

/-! The blocked operations of the buffer pool report. The report takes every load after the first
five for one that had to wait; the loads that find the pool full depend on the interleaving, and
operations that come one after the other never do. -/

namespace OsLab.Bank

open Interleaving State

variable {n : Nat}

/-- The figure that `print_buffer_pool_report` prints. -/
def blockedOperations (pool : BufferPool n) : Int :=
  if bufferPoolSize < pool.totalLoads then pool.totalLoads - bufferPoolSize else 0

/-- The thread that comes to `sem_wait` with its step and finds the pool full. -/
def State.findsFull? (s : State n) : Party n → Option (Fin n)
  | .timer => none
  | .thread t => if s.FindsRoom (.thread t) then none else some t

def blockedLoads (step : State n → Party n → Option (State n)) (schedule : List (Party n))
    (s : State n) : Nat := (trace findsFull? step schedule s).length

theorem findsFull?_of_room {s : State n} {party : Party n} (h : s.FindsRoom party) :
    s.findsFull? party = none := by
  cases party with
  | timer => rfl
  | thread t => exact if_pos h

theorem exists_full_of_findsFull? {s s' : State n} {party : Party n}
    (hs : s.step party = some s') (h : s.findsFull? party ≠ none) : ∃ t, s'.FindsFull t := by
  cases party with
  | timer => exact absurd rfl h
  | thread t =>
    refine ⟨t, ?_⟩
    by_contra hroom
    refine h (if_pos fun b hb => ?_)
    obtain rfl : s' = b := Option.some.inj (hs.symm.trans hb)
    exact hroom

def Operation.loads (op : Operation) : Nat :=
  match op.type with
  | .transfer => 2
  | _ => 1

def loadsOf (ops : List Operation) : Nat := (ops.map Operation.loads).sum

theorem loadsOf_append (ops ops' : List Operation) :
    loadsOf (ops ++ ops') = loadsOf ops + loadsOf ops' := by simp [loadsOf]

@[simp] theorem loadsOf_cons (op : Operation) (ops : List Operation) :
    loadsOf (op :: ops) = op.loads + loadsOf ops := by simp [loadsOf]

@[simp] theorem loadsOf_nil : loadsOf [] = 0 := rfl

/-- Where a thread is in an operation: the operation that will return, the loads still to be counted,
and the permits taken for loads that are not counted yet. -/
structure Loading where
  returns : List Operation
  ahead : Nat
  granted : Nat

namespace Loading

def none : Loading := ⟨[], 0, 0⟩

def grant (x : Loading) : Loading := { x with granted := 1 }

def count (x : Loading) : Loading := { x with ahead := x.ahead - 1, granted := 0 }

def finish (x : Loading) : Loading := { x with returns := [] }

end Loading

namespace Code

def Loads : Code → Loading → Prop
  | loop, x => x = .none
  | halt, x => x = .none
  | act (.pool .semWait) next, x => x.granted = 0 ∧ next.Loads x.grant
  | act (.pool .countLoad) next, x => x.granted = 1 ∧ 0 < x.ahead ∧ next.Loads x.count
  | act (.thread (.opReturn op _)) next, x => x.returns = [op] ∧ next.Loads x.finish
  | act _ next, x => next.Loads x
  | await _ next, x => next.Loads x
  | check _ _ enough short, x => enough.Loads x ∧ short.Loads x

theorem Loads.granted_le {c : Code} {x : Loading} (h : c.Loads x) : x.granted ≤ x.ahead := by
  induction c generalizing x with
  | loop => rw [show x = .none from h]; exact le_rfl
  | halt => rw [show x = .none from h]; exact le_rfl
  | await target next ih => exact ih h
  | check account amount enough short ih _ => exact ih h.1
  | act a next ih =>
    rcases a with (_ | _ | _ | _ | _ | _ | _ | _) | _ | _ | _ | (_ | _ | _)
    case pool.semWait => exact h.1.le.trans (Nat.zero_le _)
    case pool.countLoad => exact h.1.le.trans h.2.1
    case thread.opReturn => exact ih (x := x.finish) h.2
    all_goals exact ih h

section Source

variable {next onTrue onFalse : Code} {x : Loading}

theorem loads_loadAccount (account : AccountId) (hgranted : x.granted = 0) (hahead : 0 < x.ahead)
    (h : next.Loads x.grant.count) : (loadAccount account next).Loads x := ⟨hgranted, rfl, hahead, h⟩

theorem loads_transfer (fromId toId : AccountId) (amount : Int) (htrue : onTrue.Loads x)
    (hfalse : onFalse.Loads x) : (transfer fromId toId amount onTrue onFalse).Loads x := by
  unfold transfer
  split_ifs
  · exact htrue
  · exact ⟨htrue, hfalse⟩
  · exact ⟨htrue, hfalse⟩

theorem loads_executeOperation (op : Operation) :
    (executeOperation op).Loads ⟨[op], op.loads, 0⟩ := by
  unfold executeOperation Operation.loads
  cases op.type with
  | deposit => exact loads_loadAccount _ rfl Nat.one_pos ⟨rfl, rfl⟩
  | withdraw => exact loads_loadAccount _ rfl Nat.one_pos ⟨⟨rfl, rfl⟩, rfl, rfl⟩
  | transfer =>
    refine loads_loadAccount _ rfl Nat.two_pos (loads_loadAccount _ rfl Nat.one_pos ?_)
    exact loads_transfer _ _ _ ⟨rfl, rfl⟩ ⟨rfl, rfl⟩
  | balance => exact loads_loadAccount _ rfl Nat.one_pos ⟨rfl, rfl⟩

end Source

end Code

/-- Every load of the transactions is counted already, ahead in the code, or in an operation that has
not begun; and there are as many permits as slots, or more. -/
structure LoadsCounted (txs : Fin n → Transaction) (s : State n) (x : Fin n → Loading) : Prop where
  code : ∀ t, (s.threads t).code.Loads (x t)
  ops : ∀ t, (s.threads t).outcomes.map Prod.fst ++ (x t).returns ++ (s.threads t).ops = (txs t).ops
  total : s.pool.totalLoads + ∑ t, (x t).ahead + ∑ t, loadsOf (s.threads t).ops =
    ∑ t, loadsOf (txs t).ops
  permits : bufferPoolSize ≤ s.pool.emptySlots + s.pool.totalLoads + ∑ t, (x t).granted

section Steps

variable {txs : Fin n → Transaction} {s s' : State n} {x : Fin n → Loading} {t : Fin n}
variable {th : Thread} {y : Loading}

theorem LoadsCounted.setThread (h : LoadsCounted txs s x) (hthreads : s'.threads = s.threads)
    (hcode : th.code.Loads y)
    (hops : th.outcomes.map Prod.fst ++ y.returns ++ th.ops =
      (s.threads t).outcomes.map Prod.fst ++ (x t).returns ++ (s.threads t).ops)
    (htotal : s'.pool.totalLoads + y.ahead + loadsOf th.ops =
      s.pool.totalLoads + (x t).ahead + loadsOf (s.threads t).ops)
    (hpermits : s.pool.emptySlots + s.pool.totalLoads + (x t).granted ≤
      s'.pool.emptySlots + s'.pool.totalLoads + y.granted) :
    LoadsCounted txs (s'.setThread t th) (Function.update x t y) := by
  refine ⟨fun u => ?_, fun u => ?_, ?_, ?_⟩
  · rw [setThread_threads, hthreads]
    rcases eq_or_ne u t with rfl | hu
    · simpa only [Function.update_self] using hcode
    · simpa only [Function.update_of_ne hu] using h.code u
  · rw [setThread_threads, hthreads]
    rcases eq_or_ne u t with rfl | hu
    · simpa only [Function.update_self] using hops.trans (h.ops u)
    · simpa only [Function.update_of_ne hu] using h.ops u
  · have hahead := sum_update Loading.ahead x t y
    have hrest := sum_update (fun th : Thread => loadsOf th.ops) s.threads t th
    have hold := h.total
    rw [setThread_threads, hthreads, setThread_pool]
    omega
  · have hgranted := sum_update Loading.granted x t y
    have hold := h.permits
    rw [setThread_pool]
    omega

theorem LoadsCounted.goto (h : LoadsCounted txs s x) (hthreads : s'.threads = s.threads)
    (hpool : s'.pool = s.pool) (hcode : th.code.Loads (x t))
    (houtcomes : th.outcomes = (s.threads t).outcomes) (hops : th.ops = (s.threads t).ops) :
    LoadsCounted txs (s'.setThread t th) (Function.update x t (x t)) :=
  h.setThread hthreads hcode (by rw [houtcomes, hops]) (by rw [hpool, hops]) (by rw [hpool])

theorem LoadsCounted.poolAction (h : LoadsCounted txs s x) {a : PoolAction} {next : Code}
    {pool' : BufferPool n} (hcode : (s.threads t).code = .act (.pool a) next)
    (hp : a.perform t s.pool = some pool') :
    ∃ x', LoadsCounted txs
      (State.setThread { s with pool := pool' } t { s.threads t with code := next }) x' := by
  have hthreads : ({ s with pool := pool' } : State n).threads = s.threads := rfl
  have hloads := h.code t
  rw [hcode] at hloads
  cases a with
  | semWait =>
    obtain ⟨hgranted, hnext⟩ := hloads
    rw [PoolAction.perform] at hp
    split_ifs at hp with hempty
    obtain rfl := Option.some.inj hp
    refine ⟨_, h.setThread hthreads hnext rfl rfl ?_⟩
    show _ ≤ ((s.pool.emptySlots - 1 : Nat) : Int) + s.pool.totalLoads + (1 : Nat)
    omega
  | countLoad =>
    obtain ⟨hgranted, hahead, hnext⟩ := hloads
    obtain rfl := Option.some.inj hp
    refine ⟨_, h.setThread hthreads hnext rfl ?_ ?_⟩
    · show s.pool.totalLoads + 1 + ((x t).ahead - 1 : Nat) + loadsOf (s.threads t).ops = _
      omega
    · show _ ≤ s.pool.emptySlots + (s.pool.totalLoads + 1) + (0 : Nat)
      omega
  | semPost =>
    obtain rfl := Option.some.inj hp
    refine ⟨_, h.setThread hthreads hloads rfl rfl ?_⟩
    show _ ≤ ((s.pool.emptySlots + 1 : Nat) : Int) + s.pool.totalLoads + (x t).granted
    omega
  | lock =>
    rw [PoolAction.perform] at hp
    split_ifs at hp
    obtain rfl := Option.some.inj hp
    exact ⟨_, h.setThread hthreads hloads rfl rfl le_rfl⟩
  | _ =>
    obtain rfl := Option.some.inj hp
    exact ⟨_, h.setThread hthreads hloads rfl rfl le_rfl⟩

theorem LoadsCounted.act (h : LoadsCounted txs s x) {s₁ : State n} {a : Action} {next : Code}
    (hcode : (s.threads t).code = .act a next) (hp : s.perform t a = some (s₁, th)) :
    ∃ x', LoadsCounted txs (s₁.setThread t { th with code := next }) x' := by
  by_cases hpool : ∃ b, a = .pool b
  · obtain ⟨b, rfl⟩ := hpool
    obtain ⟨pool', hpart, heq⟩ := Option.map_eq_some_iff.mp hp
    obtain ⟨rfl, rfl⟩ := Prod.mk.inj heq
    exact h.poolAction hcode hpart
  have hkept : s₁.pool = s.pool := (perform_frame hp).1 fun b hb => hpool ⟨b, hb⟩
  obtain ⟨hthreads, _, rfl⟩ := perform_eq_some hp
  have hloads := h.code t
  rw [hcode] at hloads
  by_cases hreturn : ∃ op outcome, a = .thread (.opReturn op outcome)
  · obtain ⟨op, outcome, rfl⟩ := hreturn
    obtain ⟨hreturns, hnext⟩ := hloads
    refine ⟨_, h.setThread hthreads hnext ?_ ?_ ?_⟩
    · -- the operation that returns goes over to the outcomes
      simp [Loading.finish, hreturns, Thread.after, Thread.perform]
    · rw [hkept]
      rfl
    · rw [hkept]
      rfl
  · have hnext : next.Loads (x t) := by
      rcases a with a | _ | _ | _ | (_ | _ | ⟨op, outcome⟩)
      case pool => exact absurd ⟨a, rfl⟩ hpool
      case thread.opReturn => exact absurd ⟨op, outcome, rfl⟩ hreturn
      all_goals exact hloads
    refine ⟨_, h.goto hthreads hkept hnext ?_ ((s.threads t).after_ops s a)⟩
    rcases a with _ | _ | (_ | _ | (_ | _ | _ | _)) | (_ | _ | _ | _) | (_ | _ | ⟨op, outcome⟩)
    case thread.opReturn => exact absurd ⟨op, outcome, rfl⟩ hreturn
    all_goals rfl

theorem LoadsCounted.moves (h : LoadsCounted txs s x) (hm : s.Moves t s') :
    ∃ x', LoadsCounted txs s' x' := by
  have hloads := h.code t
  cases hm with
  | commit hcode hops =>
    rw [hcode] at hloads
    exact ⟨_, h.goto rfl rfl hloads rfl rfl⟩
  | begin op ops hcode hops =>
    rw [hcode] at hloads
    have hnone : x t = .none := hloads
    refine ⟨_, h.setThread rfl (Code.loads_executeOperation op) ?_ ?_ ?_⟩
    · simp [hnone, hops, Loading.none]
    · simp [hnone, hops, Loading.none, add_assoc]
    · simp [hnone, Loading.none]
  | act a next s₁ th hcode hp => exact h.act hcode hp
  | wait target next hcode hlt =>
    rw [hcode] at hloads
    exact ⟨_, LoadsCounted.goto h rfl rfl hloads rfl rfl⟩
  | proceed target next hcode hle =>
    rw [hcode] at hloads
    exact ⟨_, h.goto rfl rfl hloads rfl rfl⟩
  | short account amount enough short hcode hlt =>
    rw [hcode] at hloads
    exact ⟨_, h.goto rfl rfl hloads.2 rfl rfl⟩
  | enough account amount enough short hcode hle =>
    rw [hcode] at hloads
    exact ⟨_, h.goto rfl rfl hloads.1 rfl rfl⟩

theorem LoadsCounted.step (h : LoadsCounted txs s x) {party : Party n}
    (hs : s.step party = some s') : ∃ x', LoadsCounted txs s' x' := by
  cases party with
  | timer =>
    obtain ⟨_, _, rfl⟩ := Option.map_eq_some_iff.mp hs
    exact ⟨x, h.code, h.ops, h.total, h.permits⟩
  | thread t => exact h.moves (threadStep_moves hs)

theorem step_loadsOf_le {party : Party n} (hs : s.step party = some s') (t : Fin n) :
    loadsOf (s'.threads t).ops ≤ loadsOf (s.threads t).ops := by
  rcases step_thread hs t with hsame | hm
  · rw [hsame]
  cases hm with
  | begin op ops hcode hops =>
    rw [setThread_self, hops, loadsOf_cons]
    exact Nat.le_add_left _ _
  | act a next s₁ th hcode hp =>
    rw [setThread_self, (perform_eq_some hp).2.2]
    exact (congrArg loadsOf ((s.threads t).after_ops s a)).le
  | _ => rw [setThread_self]

theorem LoadsCounted.full (h : LoadsCounted txs s x) (hfull : s.FindsFull t) :
    bufferPoolSize < s.pool.totalLoads + ∑ u, (x u).ahead := by
  obtain ⟨next, hcode⟩ := nextAction_eq_some.mp hfull.1
  have hloads := h.code t
  rw [hcode] at hloads
  obtain ⟨hgranted, hnext⟩ := hloads
  -- the load that waits has no permit, and each permit is for another load
  have hlt : (x t).granted < (x t).ahead := by
    rw [hgranted]
    exact hnext.granted_le
  have hsum : ∑ u, (x u).granted < ∑ u, (x u).ahead :=
    Finset.sum_lt_sum (fun u _ => (h.code u).granted_le) ⟨t, Finset.mem_univ t, hlt⟩
  have hpermits := h.permits
  rw [hfull.2] at hpermits
  omega

end Steps

section Runs

variable {initial : Ledger} {txs : Fin n → Transaction} {s s' : State n} {x : Fin n → Loading}

theorem initialState_loadsCounted (initial : Ledger) (txs : Fin n → Transaction) :
    LoadsCounted txs (initialState initial txs) fun _ => .none where
  code _ := rfl
  ops _ := rfl
  total := by simp [initialState, initBufferPool, startThread, Loading.none]
  permits := by simp [initialState, initBufferPool, Loading.none]

theorem reaches_loadsCounted (h : Reaches step (initialState initial txs) s) :
    ∃ x, LoadsCounted txs s x :=
  h.invariant (fun s => ∃ x, LoadsCounted txs s x) (fun _ _ _ hb ⟨_, ha⟩ => ha.step hb)
    ⟨_, initialState_loadsCounted initial txs⟩

theorem LoadsCounted.none_of_finished (h : LoadsCounted txs s x) {t : Fin n}
    (hend : s.Finished t) : x t = .none := by
  have hloads := h.code t
  rw [hend] at hloads
  exact hloads

theorem LoadsCounted.ops_of_finished (h : LoadsCounted txs s x) {t : Fin n}
    (hend : s.Finished t) :
    (s.threads t).outcomes.map Prod.fst ++ (s.threads t).ops = (txs t).ops := by
  have hops := h.ops t
  rw [h.none_of_finished hend] at hops
  simpa [Loading.none] using hops

theorem finished_totalLoads (h : Reaches step (initialState initial txs) s)
    (hend : ∀ t, s.Finished t) :
    s.pool.totalLoads = ∑ t, loadsOf ((s.threads t).outcomes.map Prod.fst) := by
  obtain ⟨x, hcounted⟩ := reaches_loadsCounted h
  have htotal := hcounted.total
  have hahead : ∑ t, (x t).ahead = 0 :=
    Finset.sum_eq_zero fun t _ => by rw [hcounted.none_of_finished (hend t)]; rfl
  have hsplit : ∑ t, loadsOf (txs t).ops =
      ∑ t, loadsOf ((s.threads t).outcomes.map Prod.fst) + ∑ t, loadsOf (s.threads t).ops := by
    rw [← Finset.sum_add_distrib]
    refine Finset.sum_congr rfl fun t _ => ?_
    rw [← hcounted.ops_of_finished (hend t), loadsOf_append]
  omega

theorem sum_loadsOf_own (order : List (Fin n × Operation × Outcome)) :
    ∑ t, loadsOf (((order.filter fun e => e.1 = t).map Prod.snd).map Prod.fst) =
      loadsOf (order.map fun e => e.2.1) := by
  induction order with
  | nil => simp
  | cons e order ih =>
    have hsplit : ∀ t, loadsOf ((((e :: order).filter fun e => e.1 = t).map Prod.snd).map Prod.fst) =
        (if e.1 = t then e.2.1.loads else 0) +
          loadsOf (((order.filter fun e => e.1 = t).map Prod.snd).map Prod.fst) := by
      intro t
      by_cases h : e.1 = t <;> simp [h]
    simp only [hsplit, Finset.sum_add_distrib, ih]
    simp

theorem blockedLoads_eq_zero {schedule : List (Party n)}
    (h : runSchedule step schedule (initialState initial txs) = some s)
    (hend : ∀ t, s.Finished t) (hfew : s.pool.totalLoads ≤ bufferPoolSize) :
    blockedLoads step schedule (initialState initial txs) = 0 := by
  refine List.length_eq_zero_iff.mpr ?_
  refine trace_eq_nil (fun s => ∃ x, LoadsCounted txs s x) (fun _ _ _ hb ⟨_, ha⟩ => ha.step hb) ?_ h
    ⟨_, initialState_loadsCounted initial txs⟩
  rintro a party b hab ⟨x, hcounted⟩ hreach
  by_contra hlabel
  obtain ⟨t, hfull⟩ := exists_full_of_findsFull? hab hlabel
  -- what is loaded and ahead stays, since operations only begin and the rest is loaded in the end
  have hafter := hreach.invariant (fun s => (∃ x, LoadsCounted txs s x) ∧
    ∑ t, loadsOf (s.threads t).ops ≤ ∑ t, loadsOf (b.threads t).ops)
    (fun _ _ _ hb ⟨⟨_, ha⟩, hle⟩ =>
      ⟨ha.step hb, (Finset.sum_le_sum fun t _ => step_loadsOf_le hb t).trans hle⟩)
    ⟨⟨x, hcounted⟩, le_rfl⟩
  obtain ⟨⟨y, hfinal⟩, hle⟩ := hafter
  have hahead : ∑ t, (y t).ahead = 0 :=
    Finset.sum_eq_zero fun t _ => by rw [hfinal.none_of_finished (hend t)]; rfl
  have hsix := hcounted.full hfull
  have htotal := hcounted.total
  have htotal' := hfinal.total
  omega

/-- The order in which the transactions execute their operations if they do so one at a time, with
the results. -/
def SerialRun (initial : Ledger) (txs : Fin n → Transaction)
    (order : List (Fin n × Operation × Outcome)) : Prop :=
  (∀ t, ∃ status, Ended (txs t) status ((order.filter fun e => e.1 = t).map Prod.snd)) ∧
    (initial.runAll (order.map fun e => e.2.1)).2 = order.map fun e => e.2.2

theorem Ended.ops_of_nil {tx : Transaction} {status : TxStatus} (h : Ended tx status []) :
    tx.ops = [] := by
  rcases h with ⟨_, hops, _⟩ | ⟨_, _, before, op, hlast, _⟩
  · exact hops.symm
  · exact absurd hlast (by simp)

theorem Ended.of_cons {tx : Transaction} {status : TxStatus} {op : Operation} {outcome : Outcome}
    {rest : List (Operation × Outcome)} (h : Ended tx status ((op, outcome) :: rest)) :
    ∃ ops, tx.ops = op :: ops ∧
      (outcome = .refused ∧ rest = [] ∨ outcome ≠ .refused ∧ Ended ⟨ops, tx.startTick⟩ status rest) := by
  rcases h with ⟨hstatus, hops, hok⟩ | ⟨hstatus, hprefix, before, last, hlast, hok⟩
  · refine ⟨rest.map Prod.fst, hops.symm, .inr ⟨hok _ List.mem_cons_self, ?_⟩⟩
    exact .inl ⟨hstatus, rfl, fun o ho => hok o (List.mem_cons_of_mem _ ho)⟩
  · obtain ⟨after, hafter⟩ := hprefix
    refine ⟨rest.map Prod.fst ++ after, hafter.symm, ?_⟩
    cases before with
    | nil =>
      obtain ⟨heq, hrest⟩ := List.cons.inj hlast
      exact .inl ⟨congrArg Prod.snd heq, hrest⟩
    | cons o before =>
      obtain ⟨rfl, hrest⟩ := List.cons.inj hlast
      refine .inr ⟨hok _ List.mem_cons_self, .inr ⟨hstatus, List.prefix_append _ _, before, last,
        hrest, fun o ho => hok o (List.mem_cons_of_mem _ ho)⟩⟩

/-- The thread has ended, or is at its loop and executes `rest` before it ends. -/
def Thread.Executes (th : Thread) (rest : List (Operation × Outcome)) : Prop :=
  th.code = .halt ∧ rest = [] ∨ th.code = .loop ∧ ∃ status, Ended ⟨th.ops, 0⟩ status rest

theorem Thread.Executes.next {th th' : Thread} {op : Operation} {outcome : Outcome}
    {rest : List (Operation × Outcome)} (h : th.Executes ((op, outcome) :: rest))
    (hops : th'.ops = th.ops.tail)
    (hcode : th'.code = if outcome = .refused then .halt else .loop) : th'.Executes rest := by
  rcases h with ⟨_, hnil⟩ | ⟨_, status, hended⟩
  · exact absurd hnil (List.cons_ne_nil _ _)
  · obtain ⟨ops, heq, ⟨hrefused, hrest⟩ | ⟨hok, hrest⟩⟩ := hended.of_cons
    · exact .inl ⟨hcode.trans (if_pos hrefused), hrest⟩
    · have htail : th'.ops = ops := hops.trans (congrArg List.tail heq)
      exact .inr ⟨hcode.trans (if_neg hok), status, htail ▸ hrest⟩

theorem Thread.Executes.exists_left {th : Thread} {rest : List (Operation × Outcome)}
    (h : th.Executes rest) : ∃ left, rest.map Prod.fst ++ left = th.ops := by
  rcases h with ⟨_, rfl⟩ | ⟨_, status, ⟨_, hops, _⟩ | ⟨_, hops, _⟩⟩
  · exact ⟨th.ops, rfl⟩
  · exact ⟨[], (List.append_nil _).trans hops⟩
  · exact hops

theorem Rested.finishAll (h : Rested s) (hdone : ∀ t, (s.threads t).Executes []) :
    ∃ s', Reaches (guarded FindsRoom step) s s' ∧ Rested s' ∧
      ∀ t, (s'.threads t).code = .halt ∧ (s'.threads t).ops = (s.threads t).ops := by
  refine exists_reaches_each Rested State.threads
    (fun t th => th.Executes [] ∧ th.ops = (s.threads t).ops)
    (fun t th => th.code = .halt ∧ th.ops = (s.threads t).ops) ?_ h fun t => ⟨hdone t, rfl⟩
  rintro s₁ t hrested ⟨⟨hhalt, _⟩ | ⟨hloop, _, hended⟩, hops⟩
  · exact ⟨s₁, .refl, hrested, ⟨hhalt, hops⟩, fun _ _ => rfl⟩
  · have hnil : (s₁.threads t).ops = [] := hended.ops_of_nil
    obtain ⟨s', hreach, hrested', hothers, hrest, hend, _⟩ := hrested.commit hloop hnil
    exact ⟨s', hreach, hrested', ⟨hend.1, hrest.trans (hnil.symm.trans hops)⟩, hothers⟩

theorem Rested.executeAll (order : List (Fin n × Operation × Outcome)) (h : Rested s)
    (hown : ∀ t, (s.threads t).Executes ((order.filter fun e => e.1 = t).map Prod.snd))
    (hrun : (s.ledger.runAll (order.map fun e => e.2.1)).2 = order.map fun e => e.2.2) :
    ∃ s', Reaches (guarded FindsRoom step) s s' ∧ Rested s' ∧ (∀ t, (s'.threads t).Executes []) ∧
      ∀ t, ((order.filter fun e => e.1 = t).map Prod.snd).map Prod.fst ++ (s'.threads t).ops =
        (s.threads t).ops := by
  choose left hleft using fun t => (hown t).exists_left
  refine (exists_reaches_order
    (fun rest s' => Rested s' ∧
      (s'.ledger.runAll (rest.map fun e => e.2.1)).2 = rest.map fun e => e.2.2)
    State.threads (fun t rest th => th.Executes rest ∧ rest.map Prod.fst ++ left t = th.ops) ?_
    ⟨h, hrun⟩ fun t => ⟨hown t, hleft t⟩).imp fun s' ⟨hreach, ⟨hrested, _⟩, hdone⟩ =>
      ⟨hreach, hrested, fun t => (hdone t).1, fun t => (hdone t).2 ▸ hleft t⟩
  rintro t ⟨op, outcome⟩ rest s₁ ⟨hrested, hrun⟩ ⟨hturn, hops⟩
  obtain ⟨houtcome, hrest⟩ := List.cons.inj hrun
  have hloop : (s₁.threads t).code = .loop := by
    rcases hturn with ⟨_, hnil⟩ | ⟨hloop, _⟩
    · exact absurd hnil (List.cons_ne_nil _ _)
    · exact hloop
  obtain ⟨s₂, hreach, hrested₂, hothers, hops₂, hcode₂, hledger₂⟩ :=
    hrested.execute hloop hops.symm
  have hresult : (s₁.ledger.run op).2 = outcome := houtcome
  rw [hresult] at hcode₂
  refine ⟨s₂, hreach, ⟨hrested₂, hledger₂ ▸ hrest⟩, ⟨hturn.next ?_ hcode₂, hops₂.symm⟩, hothers⟩
  rw [hops₂, ← hops]
  rfl

theorem exists_schedule_of_serialRun {order : List (Fin n × Operation × Outcome)}
    (h : SerialRun initial txs order) :
    ∃ schedule s, runSchedule step schedule (initialState initial txs) = some s ∧
      (∀ t, s.Finished t) ∧ blockedLoads step schedule (initialState initial txs) = 0 ∧
      s.pool.totalLoads = loadsOf (order.map fun e => e.2.1) := by
  obtain ⟨hended, hrun⟩ := h
  obtain ⟨s₁, hreach₁, ⟨hrested₁, rfl⟩, hstart⟩ := exists_all_started initial txs
  have hown : ∀ t, (s₁.threads t).Executes ((order.filter fun e => e.1 = t).map Prod.snd) := by
    intro t
    obtain ⟨status, hstatus⟩ := hended t
    refine .inr ⟨(hstart t).1, status, ?_⟩
    rw [(hstart t).2]
    exact hstatus
  obtain ⟨s₂, hreach₂, hrested₂, hdone, hops₂⟩ := hrested₁.executeAll order hown hrun
  obtain ⟨s₃, hreach₃, _, hend⟩ := hrested₂.finishAll hdone
  have hreach : Reaches (guarded FindsRoom step) (initialState s₁.ledger txs) s₃ :=
    (hreach₁.trans hreach₂).trans hreach₃
  obtain ⟨schedule, hschedule, htrace⟩ :=
    exists_schedule_of_guarded findsFull? (fun _ _ => findsFull?_of_room) hreach
  refine ⟨schedule, s₃, hschedule, fun t => (hend t).1, ?_, ?_⟩
  · rw [blockedLoads, htrace, List.length_nil]
  · obtain ⟨x, hcounted⟩ := reaches_loadsCounted hreach.of_guarded
    rw [finished_totalLoads hreach.of_guarded fun t => (hend t).1, ← sum_loadsOf_own]
    -- the outcomes are the order's, since the same operations remain
    refine congrArg Nat.cast (Finset.sum_congr rfl fun t _ => congrArg loadsOf ?_)
    refine (List.append_left_inj (s₃.threads t).ops).mp ?_
    rw [hcounted.ops_of_finished (hend t).1, (hend t).2, hops₂ t, (hstart t).2]

theorem figure_right_iff (initial : Ledger) (txs : Fin n → Transaction) :
    (∀ schedule s, runSchedule step schedule (initialState initial txs) = some s →
      (∀ t, s.Finished t) →
      blockedOperations s.pool = blockedLoads step schedule (initialState initial txs)) ↔
    ∀ order, SerialRun initial txs order →
      loadsOf (order.map fun e => e.2.1) ≤ bufferPoolSize := by
  constructor
  · intro hreport order horder
    obtain ⟨schedule, s, hschedule, hend, hzero, htotal⟩ := exists_schedule_of_serialRun horder
    have hfigure := hreport schedule s hschedule hend
    rw [hzero, blockedOperations] at hfigure
    split_ifs at hfigure <;> omega
  · intro hfew schedule s hschedule hend
    have hreach := reaches_of_runSchedule hschedule
    obtain ⟨⟨order, hown, hreplay⟩, hended⟩ := finished_linearizable hreach hend
    have hserial : SerialRun initial txs order :=
      ⟨fun t => ⟨_, (hown t).symm ▸ hended t⟩, congrArg Prod.snd hreplay⟩
    have htotal : s.pool.totalLoads ≤ bufferPoolSize := by
      rw [finished_totalLoads hreach hend, Finset.sum_congr rfl fun t _ => by rw [← hown t],
        sum_loadsOf_own]
      exact_mod_cast hfew order hserial
    rw [blockedLoads_eq_zero hschedule hend htotal, blockedOperations, if_neg (by omega)]
    rfl

theorem SerialRun.loadsOf_le {order : List (Fin n × Operation × Outcome)}
    (h : SerialRun initial txs order) :
    loadsOf (order.map fun e => e.2.1) ≤ ∑ t, loadsOf (txs t).ops := by
  rw [← sum_loadsOf_own]
  refine Finset.sum_le_sum fun t _ => ?_
  obtain ⟨status, hended⟩ := h.1 t
  have hprefix : ((order.filter fun e => e.1 = t).map Prod.snd).map Prod.fst <+: (txs t).ops := by
    rcases hended with ⟨_, hops, _⟩ | ⟨_, hprefix, _⟩
    · rw [hops]
    · exact hprefix
  obtain ⟨rest, hrest⟩ := hprefix
  rw [← hrest, loadsOf_append]
  exact Nat.le_add_right _ _

end Runs

end OsLab.Bank
