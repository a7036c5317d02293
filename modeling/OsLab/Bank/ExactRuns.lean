import OsLab.Bank.Wrapping

/-! Runs in which every balance that is stored fits its `int`: the bank makes them as if balances
were exact. A bound on what the transactions can add to a balance keeps all balances in range. -/

namespace OsLab.Bank

open Interleaving State

variable {n : Nat}

/-- No interleaving stores a balance that an `int` cannot hold. -/
structure NoOverflow (initial : Ledger) (txs : Fin n → Transaction) : Prop where
  start : ∀ account, FitsInt (initial.1 account)
  stores : ∀ schedule, EachStep StoreFits step32 schedule (initialState initial txs)

section Exact

variable {s s' : State n} {held : Fin n → Held} {party : Party n}

theorem wrapBalances_of_fits (h : ∀ account, FitsInt (s.ledger.1 account)) : s.wrapBalances = s := by
  have hbalances : (fun account => toInt (s.ledger.1 account)) = s.ledger.1 :=
    funext fun account => toInt_of_fits (h account)
  rw [wrapBalances, hbalances]

theorem Stored.step_fits (h : Stored s) (hs : s.step party = some s') (hfits : StoreFits s party)
    (account : AccountId) : FitsInt (s'.ledger.1 account) := by
  obtain ⟨held, howns⟩ := h.owns
  rcases howns.step_balances hs with ⟨_, hsame⟩ | ⟨x, d, hstore, hupdate⟩
  · rw [hsame]
    exact h.balances account
  · rw [hupdate]
    rcases eq_or_ne account x with rfl | hne
    · rw [Function.update_self]
      exact hfits _ hstore
    · rw [Function.update_of_ne hne]
      exact h.balances account

theorem Stored.step32_eq (h : Stored s) (hfits : ∀ s' ∈ step32 s party, StoreFits s party) :
    step32 s party = s.step party := by
  unfold step32 at hfits ⊢
  cases hs : s.step party with
  | none => rfl
  | some s' =>
    rw [hs] at hfits
    rw [Option.map_some, wrapBalances_of_fits (h.step_fits hs (hfits _ rfl))]

theorem Stored.run_eq {α : Type} (h : Stored s) {schedule : List (Party n)}
    (hfits : EachStep StoreFits step32 schedule s) (label : State n → Party n → Option α) :
    runSchedule step32 schedule s = runSchedule State.step schedule s ∧
      trace label step32 schedule s = trace label State.step schedule s ∧
      states step32 schedule s = states State.step schedule s :=
  hfits.run_eq Stored (fun _ _ _ hb ha => ha.step hb) (fun _ _ ha => ha.step32_eq) label h

end Exact

def Code.outlay : Code → Nat
  | loop => 0
  | halt => 0
  | act (.ledger (.store _ amount)) next => amount.natAbs + next.outlay
  | act _ next => next.outlay
  | await _ next => next.outlay
  | check _ _ enough short => max enough.outlay short.outlay

def Thread.outlay (th : Thread) : Nat :=
  th.code.outlay + (th.ops.map fun op => (executeOperation op).outlay).sum

def State.Within (bound : Nat) (s : State n) : Prop :=
  ∀ account, (s.ledger.1 account).natAbs + ∑ t, (s.threads t).outlay ≤ bound

section Bounded

variable {s s' : State n} {held : Fin n → Held} {t : Fin n} {party : Party n} {bound : Nat}

theorem State.Moves.outlay (h : s.Moves t s') :
    (s'.threads t).outlay + ((s.storeOf? (.thread t)).elim 0 fun e => e.2.natAbs) ≤
      (s.threads t).outlay := by
  have hstore : s.storeOf? (.thread t) = (s.threads t).code.action?.bind Action.store? := rfl
  rw [hstore]
  cases h with
  | commit hcode hops =>
    rw [setThread_self, Thread.outlay, Thread.outlay, hcode, hops]
    exact le_rfl
  | begin op ops hcode hops =>
    rw [setThread_self, Thread.outlay, Thread.outlay, hcode, hops]
    exact (Nat.zero_add _).ge
  | act a next s₁ th hcode hp =>
    rw [setThread_self, Thread.outlay, Thread.outlay, (perform_eq_some hp).2.2,
      (s.threads t).after_ops s a, hcode]
    rcases a with _ | _ | _ | (_ | ⟨x, d⟩ | _ | _) | _
    case ledger.store =>
      show _ + d.natAbs ≤ d.natAbs + next.outlay + _
      dsimp only
      omega
    all_goals exact le_rfl
  | wait target next hcode hlt | proceed target next hcode hle =>
    rw [setThread_self, Thread.outlay, Thread.outlay, hcode]
    exact le_rfl
  | short account amount enough short hcode hlt =>
    rw [setThread_self, Thread.outlay, Thread.outlay, hcode]
    exact Nat.add_le_add_right (le_max_right enough.outlay short.outlay) _
  | enough account amount enough short hcode hle =>
    rw [setThread_self, Thread.outlay, Thread.outlay, hcode]
    exact Nat.add_le_add_right (le_max_left enough.outlay short.outlay) _

theorem step_outlay (hs : s.step party = some s') :
    ∑ u, (s'.threads u).outlay + ((s.storeOf? party).elim 0 fun e => e.2.natAbs) ≤
      ∑ u, (s.threads u).outlay := by
  cases party with
  | timer =>
    obtain ⟨_, _, rfl⟩ := Option.map_eq_some_iff.mp hs
    exact le_rfl
  | thread t =>
    have hmoves := threadStep_moves hs
    have hspent := hmoves.outlay
    have hupdate : s'.threads = Function.update s.threads t (s'.threads t) := by
      refine funext fun u => ?_
      rcases eq_or_ne u t with rfl | hu
      · rw [Function.update_self]
      · rw [Function.update_of_ne hu, hmoves.threads_of_ne hu]
    have hsum := sum_update Thread.outlay s.threads t (s'.threads t)
    rw [← hupdate] at hsum
    omega

theorem State.Within.step (h : s.Within bound) (howns : Owns s held) (hs : s.step party = some s') :
    s'.Within bound ∧ ∀ e ∈ s.storeOf? party, (s.ledger.1 e.1 + e.2).natAbs ≤ bound := by
  have hspent := step_outlay hs
  rcases howns.step_balances hs with ⟨hnone, hsame⟩ | ⟨x, d, hstore, hupdate⟩
  · rw [hnone] at hspent ⊢
    refine ⟨fun account => ?_, fun e he => absurd he (Option.not_mem_none e)⟩
    rw [hsame]
    exact (Nat.add_le_add_left hspent _).trans (h account)
  · rw [hstore] at hspent ⊢
    have hspent : ∑ u, (s'.threads u).outlay + d.natAbs ≤ ∑ u, (s.threads u).outlay := hspent
    have hsum := Int.natAbs_add_le (s.ledger.1 x) d
    have hx := h x
    refine ⟨fun account => ?_, fun e he => ?_⟩
    · rw [hupdate]
      rcases eq_or_ne account x with rfl | hne
      · rw [Function.update_self]
        omega
      · have haccount := h account
        rw [Function.update_of_ne hne]
        omega
    · obtain rfl := Option.some.inj he
      show (s.ledger.1 x + d).natAbs ≤ bound
      omega

theorem fitsInt_of_natAbs_le {v : Int} (h : v.natAbs ≤ 2147483647) : FitsInt v := by
  unfold FitsInt intMin intMax
  omega

theorem Stored.eachStep_of_within (h : Stored s) (hwithin : s.Within 2147483647)
    (schedule : List (Party n)) : EachStep StoreFits step32 schedule s := by
  refine eachStep_of_invariant (fun s => Stored s ∧ s.Within 2147483647) ?_ ⟨h, hwithin⟩
  rintro a i b hb ⟨hstored, hwithin⟩
  obtain ⟨held, howns⟩ := hstored.owns
  obtain ⟨b', hb', rfl⟩ := Option.map_eq_some_iff.mp hb
  obtain ⟨hnext, hstores⟩ := hwithin.step howns hb'
  have hfits : StoreFits a i := fun e he => fitsInt_of_natAbs_le (hstores e he)
  refine ⟨hfits, hstored.step hb, ?_⟩
  rwa [wrapBalances_of_fits (hstored.step_fits hb' hfits)]

theorem NoOverflow.of_bounded {initial : Ledger} {txs : Fin n → Transaction}
    (h : ∀ account, (initial.1 account).natAbs +
      ∑ t, ((txs t).ops.map fun op => (executeOperation op).outlay).sum ≤ 2147483647) :
    NoOverflow initial txs := by
  have hfits : ∀ account, FitsInt (initial.1 account) := fun account =>
    fitsInt_of_natAbs_le ((Nat.le_add_right _ _).trans (h account))
  refine ⟨hfits, (initialState_stored hfits txs).eachStep_of_within fun account => ?_⟩
  have houtlay : ∀ t, ((initialState initial txs).threads t).outlay =
      ((txs t).ops.map fun op => (executeOperation op).outlay).sum := fun t => Nat.zero_add _
  exact (congrArg _ (Finset.sum_congr rfl fun t _ => houtlay t)).trans_le (h account)

end Bounded

theorem sample_noOverflow : NoOverflow sampleLedger sampleTxs :=
  .of_bounded fun account => by
    show (10000 : Int).natAbs + _ ≤ _
    rw [Fin.sum_univ_two]
    decide +kernel

end OsLab.Bank
