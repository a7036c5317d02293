import OsLab.Bank.Linearization

/-! How transactions end, and the linearizability of whole runs. -/

namespace OsLab.Bank

open Interleaving State Code

variable {n : Nat} {tx : Transaction} {outcomes : List (Operation × Outcome)}

def Succeeded (outcomes : List (Operation × Outcome)) : Prop := ∀ o ∈ outcomes, o.2 ≠ .refused

/-- All operations have succeeded and the transaction is committed, or it is aborted and the last
one it has executed is the first that failed. -/
def Ended (tx : Transaction) (status : TxStatus) (outcomes : List (Operation × Outcome)) : Prop :=
  status = .committed ∧ outcomes.map Prod.fst = tx.ops ∧ Succeeded outcomes ∨
    status = .aborted ∧ outcomes.map Prod.fst <+: tx.ops ∧
      ∃ before op, outcomes = before ++ [(op, .refused)] ∧ Succeeded before

namespace Code

/-- Wherever the code goes, the transaction comes back to its loop with `ops` still to do and
nothing refused, or ends as it should. -/
def Settles (tx : Transaction) (ops : List Operation) :
    Code → TxStatus → List (Operation × Outcome) → Prop
  | loop, _, outcomes => outcomes.map Prod.fst ++ ops = tx.ops ∧ Succeeded outcomes
  | halt, status, outcomes => Ended tx status outcomes
  | act (.thread (.setStatus status)) next, _, outcomes => next.Settles tx ops status outcomes
  | act (.thread (.opReturn op outcome)) next, status, outcomes =>
    ∀ balance, next.Settles tx ops status (outcomes ++ [(op, returned outcome balance)])
  | act _ next, status, outcomes => next.Settles tx ops status outcomes
  | await _ next, status, outcomes => next.Settles tx ops status outcomes
  | check _ _ enough short, status, outcomes =>
    enough.Settles tx ops status outcomes ∧ short.Settles tx ops status outcomes

variable {op : Operation} {ops : List Operation} {status : TxStatus}

theorem settles_commitTransaction (h : loop.Settles tx [] status outcomes) :
    commitTransaction.Settles tx [] status outcomes :=
  .inl ⟨rfl, by simpa using h.1, h.2⟩

theorem succeeded_concat (h : Succeeded outcomes) {outcome : Outcome} (hne : outcome ≠ .refused) :
    Succeeded (outcomes ++ [(op, outcome)]) := by
  intro o ho
  rcases List.mem_append.mp ho with ho | ho
  · exact h o ho
  · rwa [List.mem_singleton.mp ho]

theorem settles_loop_concat (h : loop.Settles tx (op :: ops) status outcomes) {outcome : Outcome}
    (hne : outcome ≠ .refused) (status' : TxStatus) :
    loop.Settles tx ops status' (outcomes ++ [(op, outcome)]) :=
  ⟨by simpa using h.1, succeeded_concat h.2 hne⟩

theorem settles_abort (h : loop.Settles tx (op :: ops) status outcomes) :
    abortTransaction.Settles tx ops status (outcomes ++ [(op, .refused)]) :=
  .inr ⟨rfl, ⟨ops, by simpa using h.1⟩, outcomes, op, rfl, h.2⟩

theorem settles_transfer {onTrue onFalse : Code} (fromId toId : AccountId) (amount : Int)
    (htrue : onTrue.Settles tx ops status outcomes)
    (hfalse : onFalse.Settles tx ops status outcomes) :
    (transfer fromId toId amount onTrue onFalse).Settles tx ops status outcomes := by
  unfold transfer
  split_ifs
  · exact htrue
  · exact ⟨htrue, hfalse⟩
  · exact ⟨htrue, hfalse⟩

theorem settles_executeOperation (h : loop.Settles tx (op :: ops) status outcomes) :
    (executeOperation op).Settles tx ops status outcomes := by
  unfold executeOperation
  cases op.type with
  | deposit => exact fun _ => settles_loop_concat h (by simp [returned]) status
  | withdraw =>
    exact ⟨fun _ => settles_loop_concat h (by simp [returned]) status, fun _ => settles_abort h⟩
  | transfer =>
    exact settles_transfer _ _ _ (fun _ => settles_loop_concat h (by simp [returned]) status)
      fun _ => settles_abort h
  | balance => exact fun _ => settles_loop_concat h (by simp [returned]) status

end Code

def Thread.Settles (tx : Transaction) (th : Thread) : Prop :=
  th.code.Settles tx th.ops th.status th.outcomes

theorem settles_startThread (tx : Transaction) : (startThread tx).Settles tx :=
  ⟨rfl, fun _ h => absurd h List.not_mem_nil⟩

theorem Thread.Settles.act {th : Thread} {s : State n} {a : Action} {next : Code}
    (h : th.Settles tx) (hcode : th.code = .act a next) :
    Thread.Settles tx { th.after s a with code := next } := by
  unfold Thread.Settles at h ⊢
  rw [hcode] at h
  cases a with
  | thread a =>
    cases a with
    | opReturn op outcome => exact h _
    | _ => exact h
  | tick a => rcases a with _ | _ | (_ | _ | _ | _) <;> exact h
  | ledger a => cases a <;> exact h
  | _ => exact h

theorem moves_settles {s s' : State n} {t : Fin n} (h : (s.threads t).Settles tx)
    (hm : s.Moves t s') : (s'.threads t).Settles tx := by
  cases hm with
  | commit hcode hops =>
    rw [setThread_self]
    unfold Thread.Settles at h ⊢
    rw [hcode, hops] at h
    exact hops ▸ settles_commitTransaction h
  | begin op ops hcode hops =>
    -- the operation leaves the list and reappears among the outcomes when it returns
    rw [setThread_self]
    unfold Thread.Settles at h ⊢
    rw [hcode, hops] at h
    exact settles_executeOperation h
  | act a next s₁ th hcode hp =>
    rw [setThread_self, (perform_eq_some hp).2.2]
    exact h.act hcode
  | wait target next hcode hlt =>
    rw [setThread_self]
    unfold Thread.Settles at h ⊢
    rwa [hcode] at h
  | proceed target next hcode hle =>
    rw [setThread_self]
    unfold Thread.Settles at h ⊢
    rwa [hcode] at h
  | short x amount enough short hcode hlt =>
    rw [setThread_self]
    unfold Thread.Settles at h ⊢
    rw [hcode] at h
    exact h.2
  | enough x amount enough short hcode hle =>
    rw [setThread_self]
    unfold Thread.Settles at h ⊢
    rw [hcode] at h
    exact h.1

variable {initial : Ledger} {txs : Fin n → Transaction} {s : State n}

theorem reaches_settles (h : Reaches step (initialState initial txs) s) (t : Fin n) :
    (s.threads t).Settles (txs t) := by
  refine h.invariant (fun s => ∀ t, (s.threads t).Settles (txs t)) (fun a party b hb ha => ?_)
    (fun t => settles_startThread (txs t)) t
  intro u
  rcases step_thread hb u with hsame | hm
  · rw [hsame]
    exact ha u
  · exact moves_settles (ha u) hm

theorem reaches_ended (h : Reaches step (initialState initial txs) s) {t : Fin n}
    (hend : s.Finished t) : Ended (txs t) (s.threads t).status (s.threads t).outcomes := by
  have hsettles := reaches_settles h t
  unfold Thread.Settles at hsettles
  rwa [hend] at hsettles

theorem committed_of_finished {t : Fin n} (hend : s.Finished t) :
    (s.threads t).committed = (s.threads t).outcomes := by
  refine committed_of_idle ?_
  rw [hend]
  exact Code.quiet_halt.idle

theorem settled_of_finished (hend : ∀ t, s.Finished t) : s.settled = s.ledger := by
  have hzero : ∀ t, (s.threads t).code.pending = 0 := fun t => by rw [hend t]; rfl
  simp [settled, hzero]

/-- A run in which all transactions end does what its operations do one at a time, in an order
that keeps that of each transaction. -/
theorem finished_linearizable (h : Reaches step (initialState initial txs) s)
    (hend : ∀ t, s.Finished t) :
    (∃ order : List (Fin n × Operation × Outcome),
      (∀ t, (order.filter fun e => e.1 = t).map Prod.snd = (s.threads t).outcomes) ∧
      initial.runAll (order.map fun e => e.2.1) = (s.ledger, order.map fun e => e.2.2)) ∧
    ∀ t, Ended (txs t) (s.threads t).status (s.threads t).outcomes := by
  obtain ⟨order, horder⟩ := reaches_linearizes h
  refine ⟨⟨order, fun t => ?_, ?_⟩, fun t => reaches_ended h (hend t)⟩
  · rw [horder.own t, committed_of_finished (hend t)]
  · rw [horder.replay, settled_of_finished hend]

theorem finished_linearizable_sample :
    ∃ s : State 2, (∀ t, s.Finished t) ∧
      (∃ order : List (Fin 2 × Operation × Outcome),
        (∀ t, (order.filter fun e => e.1 = t).map Prod.snd = (s.threads t).outcomes) ∧
        sampleLedger.runAll (order.map fun e => e.2.1) = (s.ledger, order.map fun e => e.2.2)) ∧
      ∀ t, Ended (sampleTxs t) (s.threads t).status (s.threads t).outcomes := by
  obtain ⟨s, hs, hend⟩ := sampleSchedule_finished
  exact ⟨s, hend, finished_linearizable (reaches_of_runSchedule hs) hend⟩

end OsLab.Bank
