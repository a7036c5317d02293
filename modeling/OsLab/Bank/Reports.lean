import OsLab.Bank.BlockedLoads
import OsLab.Bank.Conservation
import OsLab.Bank.ExactRuns
import OsLab.Bank.PoolCount

/-! What `main` prints when all transactions have ended: the conservation check, the summary and the
buffer pool report. -/

namespace OsLab.Bank

open Interleaving State

variable {n : Nat}

structure Summary where
  totalTx : Nat
  committed : Nat
  aborted : Nat
deriving DecidableEq, Repr

/-- The loop of `print_summary`, for which what is not committed is aborted. -/
def printSummary (statuses : List TxStatus) : Summary :=
  statuses.foldl (fun r status =>
    if status = .committed then { r with totalTx := r.totalTx + 1, committed := r.committed + 1 }
    else { r with totalTx := r.totalTx + 1, aborted := r.aborted + 1 }) ⟨0, 0, 0⟩

theorem printSummary_eq (statuses : List TxStatus) : printSummary statuses =
    ⟨statuses.length, statuses.count .committed, statuses.length - statuses.count .committed⟩ := by
  induction statuses using List.reverseRecOn with
  | nil => rfl
  | append_singleton statuses status ih =>
    have hle := List.count_le_length (a := TxStatus.committed) (l := statuses)
    rw [printSummary, List.foldl_append, ← printSummary, ih]
    by_cases hstatus : status = .committed
    · simp [hstatus]
    · simp [hstatus]
      omega

def State.statuses (s : State n) : List TxStatus :=
  (List.finRange n).map fun t => (s.threads t).status

/-- `main` compares the total balances before and after. -/
def conservationCheck (initialTotal finalTotal : Int) : Bool := initialTotal = finalTotal

section Peak

variable {s s' : State n} {share : Fin n → Multiset AccountId}

theorem peakUsage_perform {t : Fin n} {pool pool' : BufferPool n} {a : PoolAction}
    (ha : a.perform t pool = some pool') (hle : pool.currentUsage ≤ pool.peakUsage) :
    pool'.peakUsage = max pool.peakUsage pool'.currentUsage := by
  cases a with
  | countLoad =>
    obtain rfl := Option.some.inj ha
    dsimp only
    rw [max_def]
    split_ifs <;> omega
  | countUnload =>
    obtain rfl := Option.some.inj ha
    dsimp only
    omega
  | semWait | lock =>
    obtain ⟨_, heq⟩ := Option.ite_none_right_eq_some.mp ha
    obtain rfl := Option.some.inj heq
    exact (max_eq_left hle).symm
  | _ =>
    obtain rfl := Option.some.inj ha
    exact (max_eq_left hle).symm

theorem PoolCounted.peakUsage_step (h : PoolCounted s share) {party : Party n}
    (hs : s.step party = some s') (hle : s.pool.currentUsage ≤ s.pool.peakUsage) :
    s'.pool.peakUsage = max s.pool.peakUsage s'.pool.currentUsage := by
  cases party with
  | timer =>
    obtain ⟨_, _, rfl⟩ := Option.map_eq_some_iff.mp hs
    exact (max_eq_left hle).symm
  | thread t =>
    rcases h.moves (threadStep_moves hs) with ⟨a, _, _, ha, _⟩ | ⟨_, hpool, _⟩
    · exact peakUsage_perform ha hle
    · rw [hpool]
      exact (max_eq_left hle).symm

theorem PoolCounted.currentUsage_le (h : PoolCounted s share) :
    s.pool.currentUsage ≤ bufferPoolSize := by
  have hahead : ∑ t, (s.place t).ahead ≤ ∑ t, ((s.place t).takes : Int) :=
    Finset.sum_le_sum fun t _ => by cases s.place t <;> decide
  have husage := h.usage
  have hsemaphore := h.semaphore
  rw [← Nat.cast_sum] at hahead
  omega

end Peak

section Runs

variable {initial : Ledger} {txs : Fin n → Transaction} {s : State n} {schedule : List (Party n)}

theorem run_peakUsage (h : runSchedule step schedule (initialState initial txs) = some s) :
    IsGreatest {x | ∃ u ∈ states step schedule (initialState initial txs), u.pool.currentUsage = x}
      s.pool.peakUsage := by
  refine isGreatest_peak (fun u : State n => u.pool.currentUsage) (fun u => u.pool.peakUsage)
    (fun u => ∃ share actions, PoolCounted u share ∧ PoolLogged u actions) ?_ ?_ h ?_ rfl
  · rintro a i b hb ⟨share, actions, hcounted, hlogged⟩
    obtain ⟨share', hcounted', hlogged'⟩ := hcounted.step hb hlogged
    exact ⟨share', _, hcounted', hlogged'⟩
  · rintro a i b hb ⟨share, _, hcounted, _⟩ hle
    exact hcounted.peakUsage_step hb hle
  · have hnil : runSchedule step [] (initialState initial txs) = some (initialState initial txs) := rfl
    obtain ⟨⟨share, hcounted⟩, hlogged⟩ := reaches_pool_logged hnil
    exact ⟨share, _, hcounted, hlogged⟩

theorem totals_of_finished (h : runSchedule step schedule (initialState initial txs) = some s)
    (hend : ∀ t, s.Finished t) : s.pool.totalUnloads = s.pool.totalLoads := by
  obtain ⟨⟨share, hcounted⟩, -⟩ := reaches_pool_logged h
  have hahead : ∀ t, (s.place t).ahead = 0 := fun t => by
    rw [show s.place t = .outside from congrArg Code.place (hend t)]
    rfl
  have hshare : ∀ t, share t = 0 := fun t => by
    have hpooled := hcounted.pooled t
    rw [hend t] at hpooled
    exact hpooled
  have husage := hcounted.usage
  rw [← BufferPool.card_accounts, hcounted.slots, Finset.sum_eq_zero fun t _ => hshare t,
    Finset.sum_eq_zero fun t _ => hahead t, hcounted.totals] at husage
  rw [Multiset.card_zero] at husage
  omega

theorem conserved_of_finished (h : Reaches step (initialState initial txs) s)
    (hend : ∀ t, s.Finished t) :
    s.calculateTotalBalance = (initialState initial txs).calculateTotalBalance := by
  obtain ⟨order, horder⟩ := reaches_linearizes h
  have htotal := Ledger.total_runAll initial (order.map fun e => e.2.1)
  rwa [horder.replay, settled_of_finished hend] at htotal

theorem count_committed (s : State n) : s.statuses.count .committed =
    (Finset.univ.filter fun t => (s.threads t).status = .committed).card := by
  rw [statuses, List.count, List.countP_map, List.countP_eq_length_filter, Finset.card_def,
    Finset.filter_val, Fin.univ_def, Multiset.filter_coe, Multiset.coe_card]
  rfl

theorem Ended.committed_iff {tx : Transaction} {status : TxStatus}
    {outcomes : List (Operation × Outcome)} (h : Ended tx status outcomes) :
    status = .committed ↔ Succeeded outcomes := by
  rcases h with ⟨hstatus, -, hok⟩ | ⟨hstatus, -, before, op, rfl, -⟩
  · exact iff_of_true hstatus hok
  · refine iff_of_false (by rw [hstatus]; decide) fun hok => ?_
    exact hok _ (List.mem_append_right _ (List.mem_singleton_self _)) rfl

/-- When all transactions have ended and every balance stored fits its `int`: the conservation check
passes; the committed ones are those of which no operation has been refused, and all others count as
aborted; there have been as many unloads as loads, one for each account of each operation executed;
and the peak is the greatest usage there has been in the run, which is within the pool. -/
theorem finished_report (hinitial : ∀ account, FitsInt (initial.1 account))
    (hfits : EachStep StoreFits step32 schedule (initialState initial txs))
    (h : runSchedule step32 schedule (initialState initial txs) = some s)
    (hend : ∀ t, s.Finished t) :
    conservationCheck (initialState initial txs).calculateTotalBalance s.calculateTotalBalance ∧
    (∃ committed : Finset (Fin n),
      printSummary s.statuses = ⟨n, committed.card, n - committed.card⟩ ∧
      ∀ t, t ∈ committed ↔ Succeeded (s.threads t).outcomes) ∧
    s.pool.totalLoads = ∑ t, loadsOf ((s.threads t).outcomes.map Prod.fst) ∧
    s.pool.totalUnloads = s.pool.totalLoads ∧
    IsGreatest {x | ∃ u ∈ states step32 schedule (initialState initial txs), u.pool.currentUsage = x}
      s.pool.peakUsage ∧
    s.pool.peakUsage ≤ bufferPoolSize := by
  obtain ⟨hrun, -, hstates⟩ := (initialState_stored hinitial txs).run_eq hfits findsFull?
  rw [hrun] at h
  rw [hstates]
  have hreach := reaches_of_runSchedule h
  have hpeak := run_peakUsage h
  refine ⟨?_, ⟨Finset.univ.filter fun t => (s.threads t).status = .committed, ?_, fun t => ?_⟩,
    finished_totalLoads hreach hend, ?_, hpeak, ?_⟩
  · exact decide_eq_true (conserved_of_finished hreach hend).symm
  · rw [printSummary_eq, count_committed, statuses, List.length_map, List.length_finRange]
  · rw [Finset.mem_filter, and_iff_right (Finset.mem_univ t)]
    exact (reaches_ended hreach (hend t)).committed_iff
  · exact totals_of_finished h hend
  · obtain ⟨u, hu, hu'⟩ := hpeak.1
    obtain ⟨before, hbefore⟩ := exists_prefix_of_mem_states hu
    obtain ⟨⟨share, hcounted⟩, -⟩ := reaches_pool_logged hbefore
    exact hu' ▸ hcounted.currentUsage_le

/-- Where no balance overflows, the number of blocked operations in the report is right in all runs
if and only if there are never more loads than slots. -/
theorem blocked_report_iff (h : NoOverflow initial txs) :
    (∀ schedule s, runSchedule step32 schedule (initialState initial txs) = some s →
      (∀ t, s.Finished t) →
      blockedOperations s.pool = blockedLoads step32 schedule (initialState initial txs)) ↔
    ∀ order, SerialRun initial txs order →
      loadsOf (order.map fun e => e.2.1) ≤ bufferPoolSize := by
  rw [← figure_right_iff initial txs]
  refine forall_congr' fun schedule => ?_
  obtain ⟨hrun, htrace, -⟩ := (initialState_stored h.start txs).run_eq (h.stores schedule) findsFull?
  rw [hrun, blockedLoads, blockedLoads, htrace]

end Runs

theorem sample_report : ∃ s : State 2,
    runSchedule step32 sampleSchedule (initialState sampleLedger sampleTxs) = some s ∧
    (∀ t, s.Finished t) ∧
    conservationCheck (initialState sampleLedger sampleTxs).calculateTotalBalance
      s.calculateTotalBalance ∧
    (∃ committed : Finset (Fin 2),
      printSummary s.statuses = ⟨2, committed.card, 2 - committed.card⟩ ∧
      ∀ t, t ∈ committed ↔ Succeeded (s.threads t).outcomes) ∧
    s.pool.totalLoads = ∑ t, loadsOf ((s.threads t).outcomes.map Prod.fst) ∧
    s.pool.totalUnloads = s.pool.totalLoads ∧
    IsGreatest {x | ∃ u ∈ states step32 sampleSchedule (initialState sampleLedger sampleTxs),
      u.pool.currentUsage = x} s.pool.peakUsage ∧
    s.pool.peakUsage ≤ bufferPoolSize := by
  have hfits := sample_noOverflow.stores sampleSchedule
  obtain ⟨s, hs, hend⟩ := sampleSchedule_finished
  rw [← ((initialState_stored sample_noOverflow.start sampleTxs).run_eq hfits findsFull?).1] at hs
  exact ⟨s, hs, hend, finished_report sample_noOverflow.start hfits hs hend⟩

/-- The deposit and the transfer come to three loads. -/
theorem blocked_report_right :
    (∀ order, SerialRun sampleLedger sampleTxs order →
      loadsOf (order.map fun e => e.2.1) ≤ bufferPoolSize) ∧
    ∀ schedule s, runSchedule step32 schedule (initialState sampleLedger sampleTxs) = some s →
      (∀ t, s.Finished t) →
      blockedOperations s.pool =
        blockedLoads step32 schedule (initialState sampleLedger sampleTxs) := by
  have hfew : ∀ order, SerialRun sampleLedger sampleTxs order →
      loadsOf (order.map fun e => e.2.1) ≤ bufferPoolSize := by
    intro order horder
    refine horder.loadsOf_le.trans ?_
    rw [Fin.sum_univ_two]
    decide
  exact ⟨hfew, (blocked_report_iff sample_noOverflow).mpr hfew⟩

def sixDeposits (_ : Fin 1) : Transaction := ⟨List.replicate 6 ⟨.deposit, 0, 500, 0⟩, 0⟩

def depositor : Party 1 := .thread ⟨0, Nat.one_pos⟩

def sixDepositsSchedule : List (Party 1) :=
  List.replicate 28 depositor ++
    (List.replicate 5 (List.replicate 3 .timer ++ List.replicate 29 depositor)).flatten ++
    List.replicate 3 .timer ++ List.replicate 13 depositor

/-- No load has to wait, and the report says that one had to. -/
theorem blocked_report_wrong :
    ∃ s, runSchedule step32 sixDepositsSchedule (initialState sampleLedger sixDeposits) = some s ∧
      (∀ t, s.Finished t) ∧ blockedOperations s.pool = 1 ∧
      blockedLoads step32 sixDepositsSchedule (initialState sampleLedger sixDeposits) = 0 := by
  have hrun : ∃ s ∈ runSchedule step32 sixDepositsSchedule (initialState sampleLedger sixDeposits),
      (∀ t, s.Finished t) ∧ blockedOperations s.pool = 1 ∧
      blockedLoads step32 sixDepositsSchedule (initialState sampleLedger sixDeposits) = 0 := by
    decide +kernel
  exact hrun

end OsLab.Bank
