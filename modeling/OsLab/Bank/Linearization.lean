import OsLab.Bank.Commit
import OsLab.Bank.Steps

/-! Linearizability. In every reachable state the operations committed so far have an order in
which, run one at a time, they give the same results and the same ledger, but for what the
committed ones have still to change. -/

namespace OsLab.Bank

open Interleaving State

variable {n : Nat}

namespace State

def settled (s : State n) : Ledger := s.ledger + ∑ t, (s.threads t).code.pending

end State

def Thread.committed (th : Thread) : List (Operation × Outcome) :=
  th.outcomes ++ (th.code.promise th.balance).toList

/-- The committed operations of all threads, in an order that explains the state. -/
structure Linearizes (initial : Ledger) (s : State n) (order : List (Fin n × Operation × Outcome)) :
    Prop where
  replay : initial.runAll (order.map fun e => e.2.1) = (s.settled, order.map fun e => e.2.2)
  own : ∀ t, (order.filter fun e => e.1 = t).map Prod.snd = (s.threads t).committed

section Steps

variable {initial : Ledger} {s s' : State n} {held : Fin n → Held} {t : Fin n} {th : Thread}
variable {order : List (Fin n × Operation × Outcome)}

theorem Linearizes.quiet (h : Linearizes initial s order) (hsettled : s'.settled = s.settled)
    (hown : ∀ u, (s'.threads u).committed = (s.threads u).committed) :
    Linearizes initial s' order := ⟨hsettled ▸ h.replay, fun u => (h.own u).trans (hown u).symm⟩

theorem Linearizes.commit (h : Linearizes initial s order) {p : Operation × Outcome}
    (hrun : s.settled.run p.1 = (s'.settled, p.2))
    (hself : (s'.threads t).committed = (s.threads t).committed ++ [p])
    (hrest : ∀ u, u ≠ t → (s'.threads u).committed = (s.threads u).committed) :
    Linearizes initial s' (order ++ [(t, p)]) where
  replay := by
    simp only [List.map_append, List.map_cons, List.map_nil, Ledger.runAll_concat, h.replay, hrun]
  own u := by
    rw [List.filter_append, List.map_append, h.own u]
    rcases eq_or_ne u t with rfl | hu
    · simp [hself]
    · simp [hrest u hu, hu.symm]

theorem settled_setThread (hthreads : s'.threads = s.threads) :
    (s'.setThread t th).settled =
      s.settled + (s'.ledger - s.ledger) + (th.code.pending - (s.threads t).code.pending) := by
  have hsum := sum_update_eq (fun th : Thread => th.code.pending) s.threads t th
  unfold settled
  rw [setThread_threads, setThread_ledger, hthreads, hsum]
  abel

theorem Safe.pending_eq_zero {c : Code} {h : Held} (hsafe : Safe c h) {x : AccountId}
    (hx : (x, .write) ∉ h.locks) : c.pending.1 x = 0 := by
  induction c generalizing h with
  | act a next ih =>
    obtain ⟨ha, hnext⟩ := hsafe
    unfold Code.pending
    split_ifs with hinternal
    · cases a with
      | ledger a =>
        cases a with
        | store y amount =>
          -- a store needs the account for writing
          have hne : x ≠ y := fun hxy => hx (hxy ▸ ha.1)
          have hrest : next.pending.1 x = 0 := ih hnext hx
          simp [Action.change, Ledger.credit, hne, hrest]
        | fetch y =>
          have hrest : next.pending.1 x = 0 := ih hnext hx
          simp [Action.change, hrest]
        | addReserve amount =>
          have hrest : next.pending.1 x = 0 := ih hnext hx
          simp [Action.change, hrest]
        | read y => simp [Action.internal] at hinternal
      | rwlock y a =>
        cases a with
        | unlock mode =>
          have hrest : next.pending.1 x = 0 := ih hnext fun hmem => hx (List.mem_of_mem_tail hmem)
          simp [Action.change, hrest]
        | _ => simp [Action.internal] at hinternal
      | _ => simp [Action.internal] at hinternal
    · rfl
  | _ => rfl

theorem Owns.settled_eq (h : Owns s held) {x : AccountId} {mode : LockMode}
    (hx : (x, mode) ∈ (held t).locks) (ht : (s.threads t).code.pending = 0) :
    s.settled.1 x = s.ledger.1 x := by
  have hzero : ∀ u, (s.threads u).code.pending.1 x = 0 := by
    intro u
    rcases eq_or_ne u t with rfl | hu
    · rw [ht]
      rfl
    · refine (h.safe u).pending_eq_zero fun hmem => hu ?_
      exact (h.not_mem_of_writer hx hmem).symm
  unfold settled
  simp [Prod.fst_sum, Finset.sum_apply, hzero]

theorem Owns.ledgerAfter_eq (h : Owns s held) {a : Action} (ha : a.Allowed (held t)) :
    a.ledgerAfter (s.threads t).temp s.ledger = s.ledger + a.change := by
  cases a with
  | ledger a =>
    cases a with
    | store x amount =>
      have htemp := (h.fresh t x ha.2).2
      simp only [Action.ledgerAfter, LedgerAction.perform, Action.change, htemp,
        Ledger.update_add, Ledger.credit]
      simp [Prod.ext_iff]
    | addReserve amount =>
      simp [Action.ledgerAfter, LedgerAction.perform, Action.change, Prod.ext_iff]
    | fetch x => simp [Action.ledgerAfter, LedgerAction.perform, Action.change]
    | read x => simp [Action.ledgerAfter, LedgerAction.perform, Action.change]
  | _ => simp [Action.ledgerAfter, Action.change]

theorem Thread.after_outcomes {a : Action} (ha : ∀ op outcome, a ≠ .thread (.opReturn op outcome)) :
    (th.after s a).outcomes = th.outcomes := by
  cases a with
  | tick a => rcases a with _ | _ | (_ | _ | _ | _) <;> rfl
  | ledger a => cases a <;> rfl
  | thread a =>
    cases a with
    | opReturn op outcome => exact absurd rfl (ha op outcome)
    | _ => rfl
  | _ => rfl

theorem Thread.after_balance {a : Action} (ha : ∀ x, a ≠ .ledger (.read x)) :
    (th.after s a).balance = th.balance := by
  cases a with
  | tick a => rcases a with _ | _ | (_ | _ | _ | _) <;> rfl
  | ledger a =>
    cases a with
    | read x => exact absurd rfl (ha x)
    | _ => rfl
  | thread a => cases a <;> rfl
  | _ => rfl

theorem Code.Linear.act_cases {a : Action} {next : Code} (h : (Code.act a next).Linear) :
    next.Linear ∧ ((∃ op outcome, a = .thread (.opReturn op outcome)) ∧ next.Idle ∨
      (∀ op outcome, a ≠ .thread (.opReturn op outcome)) ∧
        (a.internal = true ∨ next.Idle ∨ Code.Commits a next)) := by
  unfold Code.Linear at h
  split at h
  all_goals rename_i heq
  · cases heq
  · cases heq
  · cases heq
  · cases heq
  · cases heq
    exact ⟨h.2, .inl ⟨⟨_, _, rfl⟩, h.1⟩⟩
  · rename_i hreturn
    obtain ⟨rfl, rfl⟩ := Code.act.inj heq
    exact ⟨h.2, .inr ⟨fun op outcome ha => hreturn op outcome ha, h.1⟩⟩

theorem Code.promise_act {a : Action} (ha : ∀ op outcome, a ≠ .thread (.opReturn op outcome))
    (next : Code) (balance : Int) :
    (Code.act a next).promise balance = if a.internal then next.promise balance else none := by
  rw [Code.promise]
  exact ha

theorem committed_of_ne (hthreads : s'.threads = s.threads) {u : Fin n} (hu : u ≠ t) :
    ((s'.setThread t th).threads u).committed = (s.threads u).committed := by
  rw [setThread_threads, hthreads, Function.update_of_ne hu]

theorem Linearizes.setThread_quiet (h : Linearizes initial s order)
    (hthreads : s'.threads = s.threads)
    (hledger : s'.ledger + th.code.pending = s.ledger + (s.threads t).code.pending)
    (hcommitted : th.committed = (s.threads t).committed) :
    Linearizes initial (s'.setThread t th) order := by
  refine h.quiet ?_ fun u => ?_
  · rw [settled_setThread hthreads]
    have hzero : s'.ledger - s.ledger + (th.code.pending - (s.threads t).code.pending) = 0 := by
      rw [sub_add_sub_comm, hledger, sub_self]
    rw [add_assoc, hzero, add_zero]
  · rcases eq_or_ne u t with rfl | hu
    · rwa [setThread_self]
    · exact committed_of_ne hthreads hu

theorem Linearizes.setThread_commit (h : Linearizes initial s order)
    (hthreads : s'.threads = s.threads) (hledger : s'.ledger = s.ledger)
    (hpending : (s.threads t).code.pending = 0)
    (hpromise : (s.threads t).code.promise (s.threads t).balance = none)
    (houtcomes : th.outcomes = (s.threads t).outcomes)
    (hperforms : th.code.Performs s.settled th.balance) :
    ∃ order', Linearizes initial (s'.setThread t th) order' := by
  obtain ⟨p, hp, hrun⟩ := hperforms
  refine ⟨order ++ [(t, p)], h.commit ?_ ?_ fun u hu => committed_of_ne hthreads hu⟩
  · rw [settled_setThread hthreads, hrun, hledger, hpending, sub_self, add_zero, sub_zero]
  · rw [setThread_self]
    simp [Thread.committed, houtcomes, hp, hpromise]

theorem committed_of_idle (hidle : th.code.Idle) : th.committed = th.outcomes := by
  simp [Thread.committed, hidle.2]

theorem Linearizes.setThread_idle (h : Linearizes initial s order)
    (hthreads : s'.threads = s.threads) (hledger : s'.ledger = s.ledger)
    (hbefore : (s.threads t).code.Idle) (hafter : th.code.Idle)
    (houtcomes : th.outcomes = (s.threads t).outcomes) :
    Linearizes initial (s'.setThread t th) order := by
  refine h.setThread_quiet hthreads ?_ ?_
  · rw [hledger, hbefore.1, hafter.1]
  · rw [committed_of_idle hafter, committed_of_idle hbefore, houtcomes]

theorem Linearizes.act (h : Linearizes initial s order) (howns : Owns s held) {a : Action}
    {next : Code} (hcode : (s.threads t).code = .act a next) (hlinear : (Code.act a next).Linear)
    (hp : s.perform t a = some (s', th)) :
    ∃ order', Linearizes initial (s'.setThread t { th with code := next }) order' := by
  have hsafe := howns.safe t
  rw [hcode] at hsafe
  obtain ⟨hthreads, hledger, hafter⟩ := perform_eq_some hp
  rw [howns.ledgerAfter_eq hsafe.1] at hledger
  subst hafter
  obtain ⟨_, ⟨⟨op, outcome, rfl⟩, hidle⟩ | ⟨hreturn, hcases⟩⟩ := hlinear.act_cases
  · -- the return turns what was promised into an outcome
    refine ⟨order, h.setThread_quiet hthreads ?_ ?_⟩
    · rw [hledger, hcode]
      simp [Code.pending, Action.internal, Action.change, hidle.1]
    · rw [committed_of_idle hidle, Thread.committed, hcode]
      rfl
  have houtcomes : ((s.threads t).after s a).outcomes = (s.threads t).outcomes :=
    Thread.after_outcomes hreturn
  have hpromise := Code.promise_act hreturn next (s.threads t).balance
  by_cases hinternal : a.internal = true
  · -- an internal action carries out a part of what is pending
    rw [if_pos hinternal] at hpromise
    have hbalance : ((s.threads t).after s a).balance = (s.threads t).balance :=
      Thread.after_balance fun x hx => by simp [hx, Action.internal] at hinternal
    refine ⟨order, h.setThread_quiet hthreads ?_ ?_⟩
    · rw [hledger, hcode, Code.pending, if_pos hinternal, add_assoc]
    · rw [Thread.committed, Thread.committed, hcode, hpromise]
      simp only [houtcomes, hbalance]
  · rw [if_neg hinternal] at hpromise
    have hpending : (Code.act a next).pending = 0 := by rw [Code.pending, if_neg hinternal]
    have hchange : a.change = 0 := by
      cases a with
      | ledger a => cases a <;> simp_all [Action.change, Action.internal]
      | _ => rfl
    rw [hchange, add_zero] at hledger
    rcases hcases with hyes | hidle | hcommits
    · exact absurd hyes hinternal
    · refine ⟨order, h.setThread_idle hthreads hledger ?_ hidle houtcomes⟩
      rw [hcode]
      exact ⟨hpending, fun balance => by rw [Code.promise_act hreturn, if_neg hinternal]⟩
    · -- the operation commits here: from now on its changes are pending
      refine h.setThread_commit hthreads hledger (hcode ▸ hpending) (hcode ▸ hpromise) houtcomes
        (hcommits _ _ fun x hx => ?_)
      subst hx
      exact (howns.settled_eq hsafe.1 (hcode ▸ hpending)).symm

theorem Linearizes.moves (h : Linearizes initial s order) (howns : Owns s held)
    (hlinear : (s.threads t).code.Linear) (hm : s.Moves t s') :
    (s'.threads t).code.Linear ∧ ∃ order', Linearizes initial s' order' := by
  have hsafe := howns.safe t
  cases hm with
  | commit hcode hops =>
    refine ⟨?_, order, h.setThread_idle rfl rfl ?_ Code.quiet_commitTransaction.idle rfl⟩
    · rw [setThread_self]
      exact Code.quiet_commitTransaction.linear
    · rw [hcode]
      exact Code.quiet_loop.idle
  | begin op ops hcode hops =>
    refine ⟨?_, order, h.setThread_idle rfl rfl ?_ (Code.idle_executeOperation op) rfl⟩
    · rw [setThread_self]
      exact Code.linear_executeOperation op
    · rw [hcode]
      exact Code.quiet_loop.idle
  | act a next s₁ th hcode hp =>
    rw [hcode] at hlinear
    refine ⟨?_, h.act howns hcode hlinear hp⟩
    rw [setThread_self]
    exact hlinear.act_cases.1
  | wait target next hcode hlt =>
    rw [hcode] at hlinear
    have hawait : (Code.await target next).Idle := ⟨rfl, fun _ => rfl⟩
    refine ⟨?_, order, h.setThread_idle rfl rfl (hcode ▸ hawait) ⟨rfl, fun _ => rfl⟩ rfl⟩
    rw [setThread_self]
    exact ⟨.inr (.inl hawait), hlinear⟩
  | proceed target next hcode hle =>
    rw [hcode] at hlinear
    refine ⟨?_, order, h.setThread_idle rfl rfl (hcode ▸ ⟨rfl, fun _ => rfl⟩) hlinear.1 rfl⟩
    rw [setThread_self]
    exact hlinear.2
  | short x amount enough short hcode hlt =>
    rw [hcode] at hlinear hsafe
    -- the balance that is checked is that of the settled ledger, since the account is held
    have hpending : (s.threads t).code.pending = 0 := by rw [hcode]; rfl
    have hvalue := howns.settled_eq hsafe.1 hpending
    refine ⟨?_, h.setThread_commit rfl rfl hpending (by rw [hcode]; rfl) rfl ?_⟩
    · rw [setThread_self]
      exact hlinear.2.2.2
    · exact hlinear.2.1 _ _ (hvalue ▸ hlt)
  | enough x amount enough short hcode hle =>
    rw [hcode] at hlinear hsafe
    have hpending : (s.threads t).code.pending = 0 := by rw [hcode]; rfl
    have hvalue := howns.settled_eq hsafe.1 hpending
    refine ⟨?_, h.setThread_commit rfl rfl hpending (by rw [hcode]; rfl) rfl ?_⟩
    · rw [setThread_self]
      exact hlinear.2.2.1
    · exact hlinear.1 _ _ (hvalue ▸ hle)

end Steps

theorem initialState_linearizes (ledger : Ledger) (txs : Fin n → Transaction) :
    Linearizes ledger (initialState ledger txs) [] where
  replay := by
    have hzero : ∑ t, ((initialState ledger txs).threads t).code.pending = 0 :=
      Finset.sum_eq_zero fun _ _ => rfl
    rw [settled, hzero, add_zero]
    rfl
  own _ := rfl

theorem reaches_linearizes {ledger : Ledger} {txs : Fin n → Transaction} {s : State n}
    (h : Reaches step (initialState ledger txs) s) : ∃ order, Linearizes ledger s order := by
  have hinv : (∃ held, Owns s held) ∧ (∀ t, (s.threads t).code.Linear) ∧
      ∃ order, Linearizes ledger s order := by
    refine h.invariant (fun s => (∃ held, Owns s held) ∧ (∀ t, (s.threads t).code.Linear) ∧
      ∃ order, Linearizes ledger s order) (fun a party b hb ⟨⟨held, howns⟩, hlinear, order, ha⟩ => ?_)
      ⟨⟨_, initialState_owns ledger txs⟩,
        fun t => (Code.quiet_executeTransaction (txs t).startTick).linear, [],
        initialState_linearizes ledger txs⟩
    refine ⟨howns.step hb, ?_⟩
    cases party with
    | timer =>
      obtain ⟨clock', _, rfl⟩ := Option.map_eq_some_iff.mp hb
      exact ⟨hlinear, order, ha.quiet rfl fun _ => rfl⟩
    | thread t =>
      have hm := threadStep_moves hb
      obtain ⟨hself, horder⟩ := ha.moves howns (hlinear t) hm
      refine ⟨fun u => ?_, horder⟩
      rcases eq_or_ne u t with rfl | hu
      · exact hself
      · rw [hm.threads_of_ne hu]
        exact hlinear u
  exact hinv.2.2

end OsLab.Bank
