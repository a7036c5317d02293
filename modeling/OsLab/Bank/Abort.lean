import OsLab.Bank.Alone
import OsLab.Bank.Transactions

/-! What an aborted transaction leaves. Nothing takes back the operations that it executed before
the one that was refused, so the final ledger is that of a run in which they are all it has. -/

namespace OsLab.Bank

open Interleaving State

variable {n : Nat}

def succeeded (outcomes : List (Operation × Outcome)) : List Operation :=
  (outcomes.filter fun o => o.2 ≠ .refused).map Prod.fst

section Results

variable {l l' : Ledger} {tx : Transaction} {status : TxStatus}
variable {outcomes : List (Operation × Outcome)}

theorem Ledger.run_of_refused {op : Operation} (h : (l.run op).2 = .refused) :
    (l.run op).1 = l := by
  cases htype : op.type with
  | deposit => simp [run, htype] at h
  | withdraw =>
    by_cases hlt : l.1 op.accountId < op.amountCentavos
    · simp [run, htype, withdraw, hlt]
    · simp [run, htype, withdraw, hlt, outcomeOf] at h
  | transfer =>
    by_cases heq : op.accountId = op.targetAccount
    · simp [run, htype, transfer, heq]
    by_cases hlt : l.1 op.accountId < op.amountCentavos
    · simp [run, htype, transfer, heq, hlt]
    · simp [run, htype, transfer, heq, hlt, outcomeOf] at h
  | balance => simp [run, htype]

theorem Ledger.runAll_succeeded (h : l.runAll (outcomes.map Prod.fst) = (l', outcomes.map Prod.snd)) :
    (l.runAll (succeeded outcomes)).1 = l' ∧
      ∀ o ∈ (l.runAll (succeeded outcomes)).2, o ≠ .refused := by
  induction outcomes generalizing l with
  | nil => exact ⟨congrArg Prod.fst h, fun o ho => absurd ho List.not_mem_nil⟩
  | cons e outcomes ih =>
    obtain ⟨op, outcome⟩ := e
    obtain ⟨hledger, houtcomes⟩ := Prod.mk.inj h
    obtain ⟨houtcome, hrest⟩ := List.cons.inj houtcomes
    obtain ⟨hfinal, hok⟩ := ih (Prod.ext hledger hrest)
    by_cases hrefused : outcome = .refused
    · -- a refused operation leaves the ledger, so it can be skipped
      have hsame : (l.run op).1 = l := run_of_refused (houtcome.trans hrefused)
      have hskip : succeeded ((op, outcome) :: outcomes) = succeeded outcomes := by
        simp [succeeded, hrefused]
      rw [hskip, ← hsame]
      exact ⟨hfinal, hok⟩
    · have hkeep : succeeded ((op, outcome) :: outcomes) = op :: succeeded outcomes := by
        simp [succeeded, hrefused]
      rw [hkeep]
      refine ⟨hfinal, fun o ho => ?_⟩
      rcases List.mem_cons.mp ho with rfl | ho
      · exact houtcome.symm ▸ hrefused
      · exact hok o ho

theorem succeeded_eq (h : Succeeded outcomes) : succeeded outcomes = outcomes.map Prod.fst := by
  unfold succeeded
  rw [List.filter_eq_self.mpr fun o ho => decide_eq_true (h o ho)]

/-- What a transaction has executed when it is aborted: the operations that succeeded, and the one
that was refused. -/
theorem Ended.succeeded (h : Ended tx status outcomes) :
    (status = .committed → succeeded outcomes = tx.ops) ∧
      (status = .aborted → ∃ op rest, tx.ops = Bank.succeeded outcomes ++ op :: rest ∧
        outcomes.map Prod.fst = Bank.succeeded outcomes ++ [op]) := by
  rcases h with ⟨rfl, hops, hok⟩ | ⟨rfl, ⟨rest, hprefix⟩, before, op, rfl, hok⟩
  · exact ⟨fun _ => (succeeded_eq hok).trans hops, fun h => absurd h (by decide)⟩
  · have hbefore : Bank.succeeded (before ++ [(op, .refused)]) = before.map Prod.fst := by
      rw [← succeeded_eq hok]
      simp [Bank.succeeded]
    refine ⟨fun h => absurd h (by decide), fun _ => ⟨op, rest, ?_, ?_⟩⟩
    · rw [hbefore, ← hprefix]
      simp
    · rw [hbefore]
      simp

end Results

section Runs

variable {initial : Ledger} {txs : Fin n → Transaction} {s : State n}
variable {order : List (Fin n × Operation × Outcome)}

theorem exists_order_of_finished (h : Reaches step (initialState initial txs) s)
    (hend : ∀ t, s.Finished t) :
    ∃ order : List (Fin n × Operation × Outcome),
      (∀ t, (order.filter fun e => e.1 = t).map Prod.snd = (s.threads t).outcomes) ∧
      initial.runAll ((order.map Prod.snd).map Prod.fst) =
        (s.ledger, (order.map Prod.snd).map Prod.snd) := by
  obtain ⟨order, horder⟩ := reaches_linearizes h
  refine ⟨order, fun t => (horder.own t).trans (committed_of_finished (hend t)), ?_⟩
  have hreplay := horder.replay
  rw [settled_of_finished hend] at hreplay
  rw [List.map_map, List.map_map]
  exact hreplay

def succeededOrder (order : List (Fin n × Operation × Outcome)) : List (Fin n × Operation) :=
  (order.filter fun e => e.2.2 ≠ .refused).map fun e => (e.1, e.2.1)

theorem succeededOrder_snd (order : List (Fin n × Operation × Outcome)) :
    (succeededOrder order).map Prod.snd = succeeded (order.map Prod.snd) := by
  simp only [succeededOrder, succeeded, List.filter_map, List.map_map]
  rfl

theorem succeededOrder_own (order : List (Fin n × Operation × Outcome)) (t : Fin n) :
    ((succeededOrder order).filter fun e => e.1 = t).map Prod.snd =
      succeeded ((order.filter fun e => e.1 = t).map Prod.snd) := by
  simp only [succeededOrder, succeeded, List.filter_map, List.map_map, List.filter_filter]
  have hfilter : ∀ f g : Fin n × Operation × Outcome → Bool,
      order.filter (fun e => f e && g e) = order.filter fun e => g e && f e := fun f g =>
    List.filter_congr fun e _ => Bool.and_comm (f e) (g e)
  exact congrArg (List.map _) (hfilter _ _)

theorem outcomes_eq_nil (h : Reaches step (initialState initial txs) s) {t : Fin n}
    (hend : s.Finished t) (hops : (txs t).ops = []) : (s.threads t).outcomes = [] := by
  rcases reaches_ended h hend with ⟨_, heq, _⟩ | ⟨_, hprefix, _⟩
  · exact List.map_eq_nil_iff.mp (heq.trans hops)
  · rw [hops] at hprefix
    exact List.map_eq_nil_iff.mp (List.prefix_nil.mp hprefix)

theorem ops_ne_nil_of_mem (h : Reaches step (initialState initial txs) s)
    (hend : ∀ t, s.Finished t) {order : List (Fin n × Operation × Outcome)}
    (hown : ∀ t, (order.filter fun e => e.1 = t).map Prod.snd = (s.threads t).outcomes)
    {e : Fin n × Operation × Outcome} (he : e ∈ order) : (txs e.1).ops ≠ [] := by
  intro hops
  have hmem : e.2 ∈ (order.filter fun e' => e'.1 = e.1).map Prod.snd :=
    List.mem_map_of_mem (List.mem_filter.mpr ⟨he, by simp⟩)
  rw [hown e.1, outcomes_eq_nil h (hend e.1) hops] at hmem
  exact List.not_mem_nil hmem

theorem ledger_of_no_operations (h : Reaches step (initialState initial txs) s)
    (hend : ∀ t, s.Finished t) (hops : ∀ t, (txs t).ops = []) : s.ledger = initial := by
  obtain ⟨order, hown, hreplay⟩ := exists_order_of_finished h hend
  have hnil : order = [] := List.eq_nil_iff_forall_not_mem.mpr fun e he =>
    ops_ne_nil_of_mem h hend hown he (hops e.1)
  subst hnil
  exact (congrArg Prod.fst hreplay).symm

/-- A run in which all transactions end leaves the ledger of a run in which each has just the
operations that succeeded, and is committed. One that is aborted has them all before the one that
was refused. -/
theorem finished_as_succeeded (h : Reaches step (initialState initial txs) s)
    (hend : ∀ t, s.Finished t) :
    (∀ t, ((s.threads t).status = .committed → succeeded (s.threads t).outcomes = (txs t).ops) ∧
      ((s.threads t).status = .aborted →
        ∃ op rest, (txs t).ops = succeeded (s.threads t).outcomes ++ op :: rest ∧
          (s.threads t).outcomes.map Prod.fst = succeeded (s.threads t).outcomes ++ [op])) ∧
    (∃ s', Reaches step (initialState initial fun t =>
          { txs t with ops := succeeded (s.threads t).outcomes }) s' ∧
        (∀ t, s'.Finished t ∧ (s'.threads t).status = .committed) ∧ s'.ledger = s.ledger) ∧
    ∀ t, (∀ u, u ≠ t → (txs u).ops = []) →
      s.ledger = (initial.runAll (succeeded (s.threads t).outcomes)).1 := by
  obtain ⟨order, hown, hreplay⟩ := exists_order_of_finished h hend
  obtain ⟨hledger, hok⟩ := Ledger.runAll_succeeded hreplay
  refine ⟨fun t => (reaches_ended h (hend t)).succeeded, ?_, fun t hothers => ?_⟩
  · -- the operations that succeeded, in the order of the run, each by its own transaction
    rw [← succeededOrder_snd] at hledger hok
    have hops : ∀ t, ((succeededOrder order).filter fun e => e.1 = t).map Prod.snd =
        ({ txs t with ops := succeeded (s.threads t).outcomes } : Transaction).ops := by
      intro t
      rw [succeededOrder_own, hown t]
    obtain ⟨s', hreach, hdone, hfinal⟩ := exists_run_of_order hops hok
    exact ⟨s', hreach, hdone, hfinal.trans hledger⟩
  · have hself : ∀ e ∈ order, e.1 = t := by
      intro e he
      by_contra hne
      exact ops_ne_nil_of_mem h hend hown he (hothers e.1 hne)
    have hall : order.map Prod.snd = (s.threads t).outcomes := by
      rw [← hown t, List.filter_eq_self.mpr fun e he => decide_eq_true (hself e he)]
    rw [← hall]
    exact hledger.symm

end Runs

def abortedTxs (_ : Fin 1) : Transaction :=
  ⟨[⟨.deposit, 0, 500, 0⟩, ⟨.withdraw, 0, 20000, 0⟩], 0⟩

def abortedSchedule : List (Party 1) :=
  List.replicate 28 (.thread 0) ++ List.replicate 3 .timer ++ List.replicate 30 (.thread 0)

theorem abortedSchedule_finished :
    ∃ s, runSchedule step abortedSchedule (initialState sampleLedger abortedTxs) = some s ∧
      (∀ t, s.Finished t) ∧ (s.threads 0).status = .aborted ∧ s.ledger.1 0 = 10500 := by
  have hrun : ∃ s ∈ runSchedule step abortedSchedule (initialState sampleLedger abortedTxs),
      (∀ t, s.Finished t) ∧ (s.threads 0).status = .aborted ∧ s.ledger.1 0 = 10500 := by
    decide +kernel
  exact hrun

theorem finished_as_succeeded_sample :
    ∃ s : State 1, s.ledger =
      (sampleLedger.runAll (succeeded (s.threads 0).outcomes)).1 ∧ s.ledger.1 0 = 10500 := by
  obtain ⟨s, hs, hend, _, hbalance⟩ := abortedSchedule_finished
  refine ⟨s, (finished_as_succeeded (reaches_of_runSchedule hs) hend).2.2 0 fun u hu => ?_, hbalance⟩
  exact absurd (Subsingleton.elim u 0) hu

/-- No run without the operations of the aborted transaction ends with that ledger. -/
theorem aborted_leaves_trace :
    ∃ s : State 1, Reaches step (initialState sampleLedger abortedTxs) s ∧ (∀ t, s.Finished t) ∧
      (∀ t, (s.threads t).status = .aborted) ∧ s.ledger ≠ sampleLedger ∧
      ¬ ∃ s', Reaches step (initialState sampleLedger fun t => { abortedTxs t with ops := [] }) s' ∧
        (∀ t, s'.Finished t) ∧ s'.ledger = s.ledger := by
  obtain ⟨s, hs, hend, hstatus, hbalance⟩ := abortedSchedule_finished
  have hne : s.ledger ≠ sampleLedger := by
    intro heq
    rw [heq] at hbalance
    exact absurd hbalance (by decide)
  refine ⟨s, reaches_of_runSchedule hs, hend, fun t => ?_, hne, ?_⟩
  · rw [Subsingleton.elim t 0]
    exact hstatus
  · rintro ⟨s', hreach, hend', hledger⟩
    exact hne (hledger.symm.trans (ledger_of_no_operations hreach hend' fun _ => rfl))

end OsLab.Bank
