import OsLab.Bank.Deadlock

/-! Overdrafts. A debit follows a check that is made under the same write lock, so no other thread
changes the balance between the two and it stays at least what is taken. A call that is refused has
not come to its first change. -/

namespace OsLab.Bank

open Interleaving State

variable {n : Nat}

namespace Code

/-- Every debit of the code is covered by what is `known` of a balance: that of an account which the
thread holds for writing, and a bound below it. -/
def Covered : Code → Option (AccountId × Int) → Prop
  | loop, known => known = none
  | halt, known => known = none
  | act (.ledger (.store account amount)) next, known =>
    (0 ≤ amount ∨ known = some (account, -amount)) ∧ next.Covered none
  | act (.rwlock _ (.unlock _)) next, _ => next.Covered none
  | act _ next, known => next.Covered known
  | await _ next, known => next.Covered known
  | check account amount enough short, _ => enough.Covered (some (account, amount)) ∧ short.Covered none

variable {next onTrue onFalse : Code} {amount : Int}

theorem covered_withdraw (account : AccountId) (htrue : onTrue.Covered none)
    (hfalse : onFalse.Covered none) : (withdraw account amount onTrue onFalse).Covered none :=
  ⟨⟨.inr (by rw [neg_neg]), htrue⟩, hfalse⟩

theorem covered_transfer (fromId toId : AccountId) (hamount : 0 ≤ amount)
    (htrue : onTrue.Covered none) (hfalse : onFalse.Covered none) :
    (transfer fromId toId amount onTrue onFalse).Covered none := by
  have hdebit : 0 ≤ -amount ∨ some (fromId, amount) = some (fromId, -(-amount)) :=
    .inr (by rw [neg_neg])
  unfold transfer
  split_ifs
  · exact htrue
  · exact ⟨⟨hdebit, .inl hamount, htrue⟩, hfalse⟩
  · exact ⟨⟨hdebit, .inl hamount, htrue⟩, hfalse⟩

theorem covered_executeOperation {op : Operation} (hamount : 0 ≤ op.amountCentavos) :
    (executeOperation op).Covered none := by
  unfold executeOperation
  cases op.type with
  | deposit => exact ⟨.inl hamount, rfl⟩
  | withdraw => exact covered_withdraw _ rfl rfl
  | transfer => exact covered_transfer _ _ hamount rfl rfl
  | balance => exact rfl

end Code

/-- No balance is negative, and what the threads know of the balances they hold is true. -/
structure Solvent (s : State n) (known : Fin n → Option (AccountId × Int)) : Prop where
  balance : ∀ x, 0 ≤ s.ledger.1 x
  covered : ∀ t, (s.threads t).code.Covered (known t)
  floor : ∀ t x a, known t = some (x, a) → (s.locks x).writer = some t ∧ a ≤ s.ledger.1 x
  amounts : ∀ t, ∀ op ∈ (s.threads t).ops, 0 ≤ op.amountCentavos

section Balances

variable {s s' : State n} {held : Fin n → Held} {known : Fin n → Option (AccountId × Int)}
variable {t u : Fin n} {th : Thread} {x : AccountId}

theorem Solvent.setThread (h : Solvent s known) {k : Option (AccountId × Int)}
    (hthreads : s'.threads = s.threads) (hbalance : ∀ x, 0 ≤ s'.ledger.1 x)
    (hcovered : th.code.Covered k)
    (hfloor : ∀ x a, k = some (x, a) → (s'.locks x).writer = some t ∧ a ≤ s'.ledger.1 x)
    (hothers : ∀ u x, u ≠ t → (s.locks x).writer = some u →
      (s'.locks x).writer = some u ∧ s'.ledger.1 x = s.ledger.1 x)
    (hamounts : ∀ op ∈ th.ops, 0 ≤ op.amountCentavos) :
    Solvent (s'.setThread t th) (Function.update known t k) where
  balance := hbalance
  covered u := by
    rw [setThread_threads, hthreads]
    rcases eq_or_ne u t with rfl | hu
    · simpa only [Function.update_self] using hcovered
    · simpa only [Function.update_of_ne hu] using h.covered u
  floor u x a hk := by
    rcases eq_or_ne u t with rfl | hu
    · exact hfloor x a (by rwa [Function.update_self] at hk)
    · rw [Function.update_of_ne hu] at hk
      obtain ⟨hwriter, hle⟩ := h.floor u x a hk
      obtain ⟨hkept, hsame⟩ := hothers u x hu hwriter
      exact ⟨hkept, hsame.symm ▸ hle⟩
  amounts u := by
    rw [setThread_threads, hthreads]
    rcases eq_or_ne u t with rfl | hu
    · simpa only [Function.update_self] using hamounts
    · simpa only [Function.update_of_ne hu] using h.amounts u

theorem Solvent.goto (h : Solvent s known) (hcovered : th.code.Covered (known t))
    (hamounts : ∀ op ∈ th.ops, 0 ≤ op.amountCentavos) :
    Solvent (s.setThread t th) (Function.update known t (known t)) :=
  h.setThread rfl h.balance hcovered (h.floor t) (fun _ _ _ hwriter => ⟨hwriter, rfl⟩) hamounts

theorem Owns.writer_perform (h : Owns s held) {a : Action} {next : Code}
    (hcode : (s.threads t).code = .act a next) (hp : s.perform t a = some (s', th))
    (hwriter : (s.locks x).writer = some u)
    (hu : u ≠ t ∨ ∀ mode, a ≠ .rwlock x (.unlock mode)) : (s'.locks x).writer = some u := by
  cases a with
  | rwlock y a =>
    obtain ⟨lock, hlock, heq⟩ := Option.map_eq_some_iff.mp hp
    obtain ⟨rfl, rfl⟩ := Prod.mk.inj heq
    show (Function.update s.locks y lock x).writer = some u
    rcases eq_or_ne x y with rfl | hxy
    swap
    · rwa [Function.update_of_ne hxy]
    rw [Function.update_self]
    have hsafe := h.safe t
    rw [hcode] at hsafe
    rcases a with _ | _ | (_ | _)
    · simp [LockAction.perform, hwriter] at hlock
    · simp [LockAction.perform, hwriter] at hlock
    · obtain rfl := Option.some.inj hlock
      exact hwriter
    · -- the lock that is given back is the thread's own
      have hown := ((h.locks x).writer t).mpr (List.mem_of_mem_head? hsafe.1)
      obtain rfl := Option.some.inj (hwriter.symm.trans hown)
      exact ((hu.resolve_left fun hne => hne rfl) .write rfl).elim
  | _ =>
    rw [(perform_frame hp).2.1 (by simp)]
    exact hwriter

theorem Owns.ledger_perform (h : Owns s held) {a : Action} {next : Code}
    (hcode : (s.threads t).code = .act a next) (hp : s.perform t a = some (s', th))
    (hwriter : (s.locks x).writer = some u) (hu : u ≠ t) : s'.ledger.1 x = s.ledger.1 x := by
  have hsafe := h.safe t
  rw [hcode] at hsafe
  rw [(perform_eq_some hp).2.1]
  rcases a with _ | _ | _ | (_ | ⟨y, d⟩ | _ | _) | _
  all_goals try rfl
  -- only a store is left, and the thread holds that account itself
  have hne : x ≠ y := by
    rintro rfl
    have hown := ((h.locks x).writer t).mpr hsafe.1.1
    exact hu (Option.some.inj (hwriter.symm.trans hown))
  exact Function.update_of_ne hne ..

theorem Solvent.store (h : Solvent s known) (howns : Owns s held) {d : Int} {next : Code}
    (hcode : (s.threads t).code = .act (.ledger (.store x d)) next)
    (hp : s.perform t (.ledger (.store x d)) = some (s', th)) :
    ∃ known', Solvent (s'.setThread t { th with code := next }) known' := by
  have hsafe := howns.safe t
  have hcovered := h.covered t
  rw [hcode] at hsafe hcovered
  have hothers := fun (u : Fin n) (y : AccountId) (hu : u ≠ t)
      (hwriter : (s.locks y).writer = some u) =>
    And.intro (howns.writer_perform hcode hp hwriter (.inl hu))
      (howns.ledger_perform hcode hp hwriter hu)
  obtain ⟨hthreads, hledger, rfl⟩ := perform_eq_some hp
  obtain ⟨_, htemp⟩ := howns.fresh t x hsafe.1.2
  refine ⟨_, h.setThread hthreads (fun y => ?_) hcovered.2 (by simp) hothers (h.amounts t)⟩
  rw [hledger]
  rcases eq_or_ne y x with rfl | hy
  · simp only [Action.ledgerAfter, LedgerAction.perform, Function.update_self, htemp]
    have hnonneg := h.balance y
    rcases hcovered.1 with hd | hk
    · exact add_nonneg hnonneg hd
    · -- the check has found at least what is taken
      have hfloor := (h.floor t y (-d) hk).2
      omega
  · simp only [Action.ledgerAfter, LedgerAction.perform, Function.update_of_ne hy]
    exact h.balance y

theorem Solvent.unlock (h : Solvent s known) (howns : Owns s held) {mode : LockMode} {next : Code}
    (hcode : (s.threads t).code = .act (.rwlock x (.unlock mode)) next)
    (hp : s.perform t (.rwlock x (.unlock mode)) = some (s', th)) :
    ∃ known', Solvent (s'.setThread t { th with code := next }) known' := by
  have hcovered := h.covered t
  rw [hcode] at hcovered
  have hothers := fun (u : Fin n) (y : AccountId) (hu : u ≠ t)
      (hwriter : (s.locks y).writer = some u) =>
    And.intro (howns.writer_perform hcode hp hwriter (.inl hu))
      (howns.ledger_perform hcode hp hwriter hu)
  obtain ⟨hthreads, hledger, rfl⟩ := perform_eq_some hp
  exact ⟨_, h.setThread hthreads (fun y => hledger.symm ▸ h.balance y) hcovered (by simp) hothers
    (h.amounts t)⟩

theorem Solvent.keep (h : Solvent s known) (howns : Owns s held) {a : Action} {next : Code}
    (hcode : (s.threads t).code = .act a next) (hp : s.perform t a = some (s', th))
    (hcovered : next.Covered (known t)) (hunlock : ∀ x mode, a ≠ .rwlock x (.unlock mode))
    (hstore : (a.ledgerAfter (s.threads t).temp s.ledger).1 = s.ledger.1) :
    ∃ known', Solvent (s'.setThread t { th with code := next }) known' := by
  have hkept := fun (u : Fin n) (y : AccountId) (hwriter : (s.locks y).writer = some u) =>
    howns.writer_perform hcode hp hwriter (.inr (hunlock y))
  obtain ⟨hthreads, hledger, rfl⟩ := perform_eq_some hp
  have hsame : s'.ledger.1 = s.ledger.1 := by rw [hledger, hstore]
  refine ⟨_, h.setThread hthreads (fun y => hsame ▸ h.balance y) hcovered (fun y a hk => ?_)
    (fun u y _ hwriter => ⟨hkept u y hwriter, congrFun hsame y⟩) ?_⟩
  · obtain ⟨hwriter, hle⟩ := h.floor t y a hk
    exact ⟨hkept t y hwriter, (congrFun hsame y).symm ▸ hle⟩
  · show ∀ op ∈ ((s.threads t).after s _).ops, _
    rw [Thread.after_ops]
    exact h.amounts t

theorem Solvent.moves (h : Solvent s known) (howns : Owns s held) (hm : s.Moves t s') :
    ∃ known', Solvent s' known' := by
  have hcovered := h.covered t
  cases hm with
  | commit hcode hops =>
    rw [hcode] at hcovered
    exact ⟨_, h.goto hcovered (h.amounts t)⟩
  | begin op ops hcode hops =>
    rw [hcode] at hcovered
    have hamounts := h.amounts t
    rw [hops] at hamounts
    refine ⟨_, h.goto ?_ ?_⟩
    · rw [show known t = none from hcovered]
      exact Code.covered_executeOperation (hamounts op List.mem_cons_self)
    · exact fun o ho => hamounts o (List.mem_cons_of_mem op ho)
  | act a next s₁ th hcode hp =>
    rw [hcode] at hcovered
    rcases a with _ | ⟨x, _ | _ | mode⟩ | _ | (_ | ⟨x, d⟩ | _ | _) | _
    · exact h.keep howns hcode hp hcovered (by simp) rfl
    · exact h.keep howns hcode hp hcovered (by simp) rfl
    · exact h.keep howns hcode hp hcovered (by simp) rfl
    · exact h.unlock howns hcode hp
    · exact h.keep howns hcode hp hcovered (by simp) rfl
    · exact h.keep howns hcode hp hcovered (by simp) rfl
    · exact h.store howns hcode hp
    · exact h.keep howns hcode hp hcovered (by simp) rfl
    · exact h.keep howns hcode hp hcovered (by simp) rfl
    · exact h.keep howns hcode hp hcovered (by simp) rfl
  | wait target next hcode hlt =>
    rw [hcode] at hcovered
    exact ⟨_, h.setThread rfl h.balance hcovered (h.floor t) (fun _ _ _ hw => ⟨hw, rfl⟩)
      (h.amounts t)⟩
  | proceed target next hcode hle =>
    rw [hcode] at hcovered
    exact ⟨_, h.goto hcovered (h.amounts t)⟩
  | short x amount enough short hcode hlt =>
    rw [hcode] at hcovered
    exact ⟨_, h.setThread (k := none) rfl h.balance hcovered.2 (by simp)
      (fun _ _ _ hw => ⟨hw, rfl⟩) (h.amounts t)⟩
  | enough x amount enough short hcode hle =>
    rw [hcode] at hcovered
    have hsafe := howns.safe t
    rw [hcode] at hsafe
    -- from here on the thread knows that the account has the amount
    refine ⟨_, h.setThread rfl h.balance hcovered.1 (fun y a hk => ?_)
      (fun _ _ _ hw => ⟨hw, rfl⟩) (h.amounts t)⟩
    obtain ⟨rfl, rfl⟩ := Prod.mk.inj (Option.some.inj hk)
    exact ⟨((howns.locks x).writer t).mpr hsafe.1, hle⟩

end Balances

def Action.changesLedger : Action → Bool
  | ledger (.store _ _) => true
  | ledger (.addReserve _) => true
  | _ => false

theorem Action.ledgerAfter_of_not_changes {a : Action} (ha : a.changesLedger = false) (temp : Int)
    (l : Ledger) : a.ledgerAfter temp l = l := by
  rcases a with _ | _ | _ | (_ | _ | _ | _) | _ <;> first | rfl | simp [changesLedger] at ha

namespace Code

def Succeeds : Code → Prop
  | loop => False
  | halt => False
  | act (.thread (.opReturn _ outcome)) _ => outcome ≠ some .refused
  | act _ next => next.Succeeds
  | await _ next => next.Succeeds
  | check _ _ enough short => enough.Succeeds ∧ short.Succeeds

def Decided : Code → Prop
  | loop => True
  | halt => True
  | act action next => (action.changesLedger = true → next.Succeeds) ∧ next.Decided
  | await _ next => next.Decided
  | check _ _ enough short => enough.Decided ∧ short.Decided

variable {next onTrue onFalse : Code}

theorem decided_act {a : Action} (ha : a.changesLedger = false) (h : next.Decided) :
    (act a next).Decided := ⟨fun hchanges => by simp [ha] at hchanges, h⟩

theorem decided_tick (actions : List TickAction) (h : next.Decided) : (tick actions next).Decided := by
  induction actions with
  | nil => exact h
  | cons a actions ih => exact decided_act rfl ih

theorem decided_pool (actions : List PoolAction) (h : next.Decided) : (pool actions next).Decided := by
  induction actions with
  | nil => exact h
  | cons a actions ih => exact decided_act rfl ih

theorem decided_abortTransaction : abortTransaction.Decided :=
  decided_act rfl (decided_tick _ trivial)

theorem decided_commitTransaction : commitTransaction.Decided :=
  decided_tick _ (decided_act rfl trivial)

theorem decided_waitUntilTick (target : Target) (h : next.Decided) :
    (waitUntilTick target next).Decided := decided_act rfl (decided_tick [.unlock] h)

theorem decided_executeTransaction (startTick : Int) : (executeTransaction startTick).Decided :=
  decided_waitUntilTick _ (decided_tick _ (decided_act rfl trivial))

theorem decided_finishOperation {unload : Code → Code} (h : (unload loop).Decided) :
    (finishOperation unload).Decided :=
  decided_tick _ (decided_act rfl (decided_waitUntilTick .nextTick h))

theorem decided_getBalance (account : AccountId) (h : next.Decided) :
    (getBalance account next).Decided :=
  decided_act rfl (decided_act rfl (decided_act rfl h))

theorem decided_locked {first second fromId toId : AccountId} (amount : Int)
    (hsucceeds : onTrue.Succeeds) (htrue : onTrue.Decided) (hfalse : onFalse.Decided) :
    Decided (rwlock first .wrlock <| rwlock second .wrlock <| .check fromId amount
      (ledger [.fetch fromId, .store fromId (-amount), .fetch toId, .store toId amount] <|
        rwlock second (.unlock .write) <| rwlock first (.unlock .write) onTrue)
      (rwlock second (.unlock .write) <| rwlock first (.unlock .write) onFalse)) := by
  apply decided_act rfl
  apply decided_act rfl
  refine ⟨?_, decided_act rfl (decided_act rfl hfalse)⟩
  apply decided_act rfl
  refine ⟨fun _ => hsucceeds, ?_⟩
  apply decided_act rfl
  exact ⟨fun _ => hsucceeds, decided_act rfl (decided_act rfl htrue)⟩

theorem decided_transfer (fromId toId : AccountId) (amount : Int) (hsucceeds : onTrue.Succeeds)
    (htrue : onTrue.Decided) (hfalse : onFalse.Decided) :
    (transfer fromId toId amount onTrue onFalse).Decided := by
  unfold transfer
  split_ifs
  · exact htrue
  · exact decided_locked amount hsucceeds htrue hfalse
  · exact decided_locked amount hsucceeds htrue hfalse

theorem decided_withdraw (account : AccountId) (amount : Int) (hsucceeds : onTrue.Succeeds)
    (htrue : onTrue.Decided) (hfalse : onFalse.Decided) :
    (withdraw account amount onTrue onFalse).Decided := by
  apply decided_act rfl
  refine ⟨?_, decided_act rfl hfalse⟩
  apply decided_act rfl
  refine ⟨fun _ => hsucceeds, ?_⟩
  apply decided_act rfl
  exact ⟨fun _ => hsucceeds, htrue⟩

theorem decided_deposit (account : AccountId) (amount : Int) (hsucceeds : next.Succeeds)
    (h : next.Decided) : (deposit account amount next).Decided := by
  apply decided_act rfl
  apply decided_act rfl
  refine ⟨fun _ => hsucceeds, ?_⟩
  apply decided_act rfl
  exact ⟨fun _ => hsucceeds, h⟩

theorem decided_executeOperation (op : Operation) : (executeOperation op).Decided := by
  have hreturn : ∀ {outcome rest}, Decided rest →
      (thread (.opReturn op outcome) rest).Decided := fun h => decided_act rfl h
  have hdone : ∀ {rest}, (thread (.opReturn op (some .done)) rest).Succeeds := fun h => by
    simp at h
  have hfinish := decided_finishOperation
    (decided_pool [.lock, .countUnload, .freeSlot op.accountId, .unlock, .semPost] trivial)
  have habort := decided_abortTransaction
  unfold executeOperation
  apply decided_tick
  cases op.type with
  | deposit =>
    apply decided_pool
    exact decided_deposit _ _ hdone (hreturn hfinish)
  | withdraw =>
    apply decided_pool
    exact decided_withdraw _ _ hdone (hreturn hfinish) (hreturn (decided_pool _ habort))
  | transfer =>
    apply decided_pool
    apply decided_pool
    apply decided_transfer _ _ _ hdone
    · exact hreturn (decided_finishOperation (decided_pool _ (decided_pool _ trivial)))
    · exact hreturn (decided_pool _ (decided_pool _ habort))
  | balance =>
    apply decided_pool
    exact decided_getBalance _ (hreturn hfinish)

end Code

namespace State

/-- No step of the thread `t` in the schedule changes a balance or the reserve. -/
def Spares (t : Fin n) : State n → List (Party n) → Prop
  | _, [] => True
  | s, i :: is =>
    ∀ s', s.step i = some s' → (i = .thread t → s'.ledger = s.ledger) ∧ s'.Spares t is

end State

section Refused

variable {s s' : State n} {t : Fin n}

theorem moves_decided (h : (s.threads t).code.Decided) (hm : s.Moves t s') :
    (s'.threads t).code.Decided := by
  cases hm with
  | commit hcode hops =>
    rw [setThread_self]
    exact Code.decided_commitTransaction
  | begin op ops hcode hops =>
    rw [setThread_self]
    exact Code.decided_executeOperation op
  | act a next s₁ th hcode hp =>
    rw [hcode] at h
    rw [setThread_self]
    exact h.2
  | wait target next hcode hlt =>
    rw [hcode] at h
    rw [setThread_self]
    exact Code.decided_act rfl h
  | proceed target next hcode hle =>
    rw [hcode] at h
    rw [setThread_self]
    exact h
  | short x amount enough short hcode hlt =>
    rw [hcode] at h
    rw [setThread_self]
    exact h.2
  | enough x amount enough short hcode hle =>
    rw [hcode] at h
    rw [setThread_self]
    exact h.1

theorem step_decided (h : ∀ t, (s.threads t).code.Decided) {party : Party n}
    (hs : s.step party = some s') : ∀ t, (s'.threads t).code.Decided := by
  intro t
  rcases step_thread hs t with hsame | hm
  · rw [hsame]
    exact h t
  · exact moves_decided (h t) hm

theorem thread_after_outcomes_le (th : Thread) (s : State n) (a : Action) :
    th.outcomes.length ≤ (th.after s a).outcomes.length := by
  rcases a with _ | _ | (_ | _ | (_ | _ | _ | _)) | (_ | _ | _ | _) | (_ | _ | _)
  all_goals try exact le_rfl
  simp [Thread.after, Thread.perform]

theorem step_outcomes_le {party : Party n} (hs : s.step party = some s') (t : Fin n) :
    (s.threads t).outcomes.length ≤ (s'.threads t).outcomes.length := by
  rcases step_thread hs t with hsame | hm
  · rw [hsame]
  · cases hm with
    | act a next s₁ th hcode hp =>
      rw [setThread_self, (perform_eq_some hp).2.2]
      exact thread_after_outcomes_le _ s a
    | _ => rw [setThread_self]

theorem run_outcomes_le {is : List (Party n)} (h : runSchedule step is s = some s') (t : Fin n) :
    (s.threads t).outcomes.length ≤ (s'.threads t).outcomes.length := by
  induction is generalizing s with
  | nil => rw [Option.some.inj h]
  | cons i is ih =>
    obtain ⟨a, ha, hrest⟩ := Option.bind_eq_some_iff.mp h
    exact (step_outcomes_le ha t).trans (ih hrest)

theorem moves_succeeds (h : (s.threads t).code.Succeeds) (hm : s.Moves t s') :
    (s'.threads t).code.Succeeds ∨
      (s.threads t).outcomes.length < (s'.threads t).outcomes.length := by
  cases hm with
  | commit hcode hops => rw [hcode] at h; exact h.elim
  | begin op ops hcode hops => rw [hcode] at h; exact h.elim
  | act a next s₁ th hcode hp =>
    rw [hcode] at h
    rw [setThread_self, (perform_eq_some hp).2.2]
    rcases a with _ | _ | _ | _ | (_ | _ | _)
    all_goals try exact .inl h
    exact .inr (by simp [Thread.after, Thread.perform])
  | wait target next hcode hlt =>
    rw [hcode] at h
    rw [setThread_self]
    exact .inl h
  | proceed target next hcode hle =>
    rw [hcode] at h
    rw [setThread_self]
    exact .inl h
  | short x amount enough short hcode hlt =>
    rw [hcode] at h
    rw [setThread_self]
    exact .inl h.2
  | enough x amount enough short hcode hle =>
    rw [hcode] at h
    rw [setThread_self]
    exact .inl h.1

theorem run_succeeds {is : List (Party n)} (h : runSchedule step is s = some s')
    (hsucceeds : (s.threads t).code.Succeeds) :
    (s'.threads t).code.Succeeds ∨
      (s.threads t).outcomes.length < (s'.threads t).outcomes.length := by
  induction is generalizing s with
  | nil => exact .inl (Option.some.inj h ▸ hsucceeds)
  | cons i is ih =>
    obtain ⟨a, ha, hrest⟩ := Option.bind_eq_some_iff.mp h
    have hstep : (a.threads t).code.Succeeds ∨
        (s.threads t).outcomes.length < (a.threads t).outcomes.length := by
      rcases step_thread ha t with hsame | hm
      · rw [hsame]
        exact .inl hsucceeds
      · exact moves_succeeds hsucceeds hm
    -- outcomes are only added, so a call that has returned stays behind
    have hle := run_outcomes_le hrest t
    rcases hstep with hgo | hlt
    · exact (ih hrest hgo).imp_right (step_outcomes_le ha t).trans_lt
    · exact .inr (hlt.trans_le hle)

theorem threadStep_ledger (h : (s.threads t).code.Decided) (hs : s.threadStep t = some s') :
    s'.ledger = s.ledger ∨ (s'.threads t).code.Succeeds := by
  cases threadStep_moves hs with
  | act a next s₁ th hcode hp =>
    rw [hcode] at h
    rw [setThread_self, setThread_ledger, (perform_eq_some hp).2.1]
    cases hchanges : a.changesLedger with
    | false => exact .inl (Action.ledgerAfter_of_not_changes hchanges _ _)
    | true => exact .inr (h.1 hchanges)
  | _ => exact .inl rfl

theorem spares_of_refused {is : List (Party n)} {op : Operation}
    (hdecided : ∀ t, (s.threads t).code.Decided) (hrun : runSchedule step is s = some s')
    (hsame : (s'.threads t).outcomes.length = (s.threads t).outcomes.length)
    (hrefused : s'.nextAction t = some (.thread (.opReturn op (some .refused)))) :
    s.Spares t is := by
  have hfails : ¬ (s'.threads t).code.Succeeds := by
    obtain ⟨next, hcode⟩ := nextAction_eq_some.mp hrefused
    rw [hcode]
    exact fun hne => hne rfl
  induction is generalizing s with
  | nil => exact trivial
  | cons i is ih =>
    obtain ⟨a, ha, hrest⟩ := Option.bind_eq_some_iff.mp hrun
    have hlow := step_outcomes_le ha t
    have hhigh := run_outcomes_le hrest t
    intro b hb
    obtain rfl := Option.some.inj (ha.symm.trans hb)
    refine ⟨?_, ih (step_decided hdecided ha) hrest ?_⟩
    · rintro rfl
      apply (threadStep_ledger (hdecided t) ha).resolve_right
      intro hsucceeds
      -- a call that has changed something cannot come to the refusal
      rcases run_succeeds hrest hsucceeds with hlater | hlt
      · exact hfails hlater
      · exact absurd (hlow.trans_lt hlt) (not_lt.mpr hsame.le)
    · exact hhigh.antisymm (hsame.le.trans hlow) |>.symm

end Refused

section Runs

variable {ledger : Ledger} {txs : Fin n → Transaction} {s : State n}

theorem initialState_solvent (hledger : ∀ x, 0 ≤ ledger.1 x)
    (hamounts : ∀ t, ∀ op ∈ (txs t).ops, 0 ≤ op.amountCentavos) :
    Solvent (initialState ledger txs) fun _ => none where
  balance := hledger
  covered _ := rfl
  floor _ _ _ h := by simp at h
  amounts := hamounts

theorem reaches_solvent (hledger : ∀ x, 0 ≤ ledger.1 x)
    (hamounts : ∀ t, ∀ op ∈ (txs t).ops, 0 ≤ op.amountCentavos)
    (h : Reaches step (initialState ledger txs) s) : ∃ known, Solvent s known := by
  have hinv : (∃ held, Owns s held) ∧ ∃ known, Solvent s known := by
    refine h.invariant (fun s => (∃ held, Owns s held) ∧ ∃ known, Solvent s known)
      (fun a party b hb ⟨⟨held, howns⟩, known, ha⟩ => ⟨howns.step hb, ?_⟩)
      ⟨⟨_, initialState_owns ledger txs⟩, _, initialState_solvent hledger hamounts⟩
    cases party with
    | timer =>
      obtain ⟨_, _, rfl⟩ := Option.map_eq_some_iff.mp hb
      exact ⟨known, ha.balance, ha.covered, ha.floor, ha.amounts⟩
    | thread t => exact ha.moves howns (threadStep_moves hb)
  exact hinv.2

theorem reaches_decided (h : Reaches step (initialState ledger txs) s) (t : Fin n) :
    (s.threads t).code.Decided :=
  h.invariant (fun s => ∀ t, (s.threads t).code.Decided) (fun _ _ _ hb ha => step_decided ha hb)
    (fun t => Code.decided_executeTransaction (txs t).startTick) t

/-- No balance is ever negative, and a thread whose call is about to be refused has changed nothing
since its last call returned. -/
theorem reaches_no_overdraft (hledger : ∀ x, 0 ≤ ledger.1 x)
    (hamounts : ∀ t, ∀ op ∈ (txs t).ops, 0 ≤ op.amountCentavos)
    (h : Reaches step (initialState ledger txs) s) :
    (∀ x, 0 ≤ s.ledger.1 x) ∧
    ∀ is s' t op, runSchedule step is s = some s' →
      (s'.threads t).outcomes = (s.threads t).outcomes →
      s'.nextAction t = some (.thread (.opReturn op (some .refused))) → s.Spares t is := by
  refine ⟨?_, ?_⟩
  · obtain ⟨known, hsolvent⟩ := reaches_solvent hledger hamounts h
    exact hsolvent.balance
  · intro is s' t op hrun hsame hrefused
    exact spares_of_refused (reaches_decided h) hrun (congrArg List.length hsame) hrefused

/-- The transfer takes both locks, finds too little, and gives them back. -/
theorem reaches_no_overdraft_sample :
    ∃ s : State 2, (∀ x, 0 ≤ s.ledger.1 x) ∧ s.Spares 1 (List.replicate 5 (.thread 1)) := by
  have hrun : ∃ s ∈ runSchedule step (sampleSchedule.take 52) (initialState sampleLedger sampleTxs),
      ∃ s' ∈ runSchedule step (List.replicate 5 (.thread 1)) s,
        (s'.threads 1).outcomes = (s.threads 1).outcomes ∧
        s'.nextAction 1 = some (.thread (.opReturn ⟨.transfer, 0, 20000, 1⟩ (some .refused))) := by
    decide +kernel
  obtain ⟨s, hs, s', hs', hsame, hrefused⟩ := hrun
  have hamounts : ∀ t, ∀ op ∈ (sampleTxs t).ops, 0 ≤ op.amountCentavos := by decide
  obtain ⟨hbalance, hspares⟩ :=
    reaches_no_overdraft (fun _ => show (0 : Int) ≤ 10000 by decide) hamounts (reaches_of_runSchedule hs)
  exact ⟨s, hbalance, hspares _ s' 1 _ hs' hsame hrefused⟩

end Runs

end OsLab.Bank
