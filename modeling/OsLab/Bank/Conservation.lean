import OsLab.Bank.Transactions

/-! Conservation of money. -/

namespace OsLab.Bank

open Interleaving State

variable {n : Nat} {initial : Ledger} {txs : Fin n → Transaction} {s : State n}

namespace State

/-- What the thread's operation will still add to the total. Before its first change and after its
second that is nothing: only between them is the amount of the second owed. -/
def owed (s : State n) (t : Fin n) : Int := Ledger.total (s.threads t).code.pending

end State

theorem calculateTotalBalance_eq (s : State n) : s.calculateTotalBalance = Ledger.total s.ledger :=
  rfl

theorem reaches_conserved (h : Reaches step (initialState initial txs) s) :
    s.calculateTotalBalance + ∑ t, s.owed t =
      (initialState initial txs).calculateTotalBalance ∧
    ((∀ t, s.Finished t) →
      s.calculateTotalBalance = (initialState initial txs).calculateTotalBalance) := by
  obtain ⟨order, horder⟩ := reaches_linearizes h
  have htotal : Ledger.total s.settled = Ledger.total initial := by
    rw [← Ledger.total_runAll initial (order.map fun e => e.2.1), horder.replay]
  have hsum : s.calculateTotalBalance + ∑ t, s.owed t =
      (initialState initial txs).calculateTotalBalance := by
    rw [calculateTotalBalance_eq, calculateTotalBalance_eq]
    rw [settled, map_add, map_sum] at htotal
    exact htotal
  refine ⟨hsum, fun hend => ?_⟩
  have hzero : ∀ t, s.owed t = 0 := fun t => by
    rw [owed, hend t]
    exact map_zero _
  simpa [hzero] using hsum

theorem reaches_conserved_sample :
    ∃ s : State 2, (∀ t, s.Finished t) ∧
      s.calculateTotalBalance = (initialState sampleLedger sampleTxs).calculateTotalBalance := by
  obtain ⟨s, hs, hend⟩ := sampleSchedule_finished
  exact ⟨s, hend, (reaches_conserved (reaches_of_runSchedule hs)).2 hend⟩

end OsLab.Bank
