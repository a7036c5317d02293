import OsLab.Bank.Steps
import OsLab.Bank.Deadlock
import OsLab.Bank.ValidTraces

/-! Balances as they are stored. `balance_centavos` is an `int`: a number of the accounts file goes
through a `long` into it, and `+=` and `-=` wrap. -/

namespace OsLab.Bank

open Interleaving State

variable {n : Nat}

/-- What the balances are after a step that has stored in `int`s. -/
def State.wrapBalances (s : State n) : State n :=
  { s with ledger := (fun account => toInt (s.ledger.1 account), s.ledger.2) }

def step32 (s : State n) (party : Party n) : Option (State n) := (s.step party).map wrapBalances

def bankStart (accounts : List Char) (txs : Fin n → Transaction) : State n :=
  initialState (loadAccounts accounts, 0) txs

def fileNumbers (accounts : List Char) : AccountId → Int := storeBalances id (accountLines accounts)

def Action.store? : Action → Option (AccountId × Int)
  | .ledger (.store account amount) => some (account, amount)
  | _ => none

def State.storeOf? (s : State n) : Party n → Option (AccountId × Int)
  | .timer => none
  | .thread t => (s.nextAction t).bind Action.store?

def applied (stores : List (AccountId × Int)) (account : AccountId) : Int :=
  ((stores.filter fun e => e.1 = account).map Prod.snd).sum

def Exact (numbers : AccountId → Int) (s : State n) (stores : List (AccountId × Int)) : Prop :=
  ∀ account, s.ledger.1 account = numbers account + applied stores account

def StoreFits (s : State n) (party : Party n) : Prop :=
  ∀ e ∈ s.storeOf? party, FitsInt (s.ledger.1 e.1 + e.2)

theorem applied_concat (stores : List (AccountId × Int)) (e : AccountId × Int)
    (account : AccountId) : applied (stores ++ [e]) account =
      applied stores account + if e.1 = account then e.2 else 0 := by
  unfold applied
  by_cases h : e.1 = account <;> simp [h]

theorem storeBalances_eq {store : Int → Int} (hstore : store 0 = 0) (lines : List (List Char))
    (account : AccountId) :
    storeBalances store lines account = store (storeBalances id lines account) := by
  unfold storeBalances
  have hfold : ∀ (records : List (AccountId × Int)) (stored exact : AccountId → Int),
      stored account = store (exact account) →
      records.foldl (fun balances r => Function.update balances r.1 (store r.2)) stored account =
        store (records.foldl (fun balances r => Function.update balances r.1 (id r.2)) exact
          account) := by
    intro records
    induction records with
    | nil => exact fun _ _ h => h
    | cons r records ih =>
      intro stored exact h
      refine ih _ _ ?_
      rcases eq_or_ne account r.1 with rfl | hne
      · simp
      · simpa [hne] using h
  exact hfold _ _ _ hstore.symm

theorem loadAccounts_eq (accounts : List Char) (account : AccountId) :
    loadAccounts accounts account = toInt (toLong (fileNumbers accounts account)) :=
  storeBalances_eq (by decide) _ account

theorem loadAccounts_exact_iff (accounts : List Char) (account : AccountId) :
    loadAccounts accounts account = fileNumbers accounts account ↔
      FitsInt (fileNumbers accounts account) := by
  rw [loadAccounts_eq]
  constructor
  · exact fun h => h ▸ toInt_fits _
  · intro h
    rw [toLong_of_fits h, toInt_of_fits h]

section Steps

variable {s s' : State n} {held : Fin n → Held} {party : Party n}

theorem step_temp (hs : s.step party = some s') (t : Fin n) :
    (s'.threads t).temp = (s.threads t).temp ∨ ∃ x, (s'.threads t).temp = s.ledger.1 x := by
  rcases step_thread hs t with hsame | hm
  · exact .inl (by rw [hsame])
  cases hm with
  | act a next s₁ th hcode hp =>
    rw [setThread_self, (perform_eq_some hp).2.2]
    rcases a with _ | _ | (_ | _ | (_ | _ | _ | _)) | (x | _ | _ | _) | (_ | _ | _)
    case ledger.fetch => exact .inr ⟨x, rfl⟩
    all_goals exact .inl rfl
  | _ => exact .inl (by rw [setThread_self])

theorem Owns.step_balances (h : Owns s held) (hs : s.step party = some s') :
    (s.storeOf? party = none ∧ s'.ledger.1 = s.ledger.1) ∨
      ∃ x d, s.storeOf? party = some (x, d) ∧
        s'.ledger.1 = Function.update s.ledger.1 x (s.ledger.1 x + d) := by
  cases party with
  | timer =>
    obtain ⟨_, _, rfl⟩ := Option.map_eq_some_iff.mp hs
    exact .inl ⟨rfl, rfl⟩
  | thread t =>
    have hsafe := h.safe t
    have hstore : s.storeOf? (.thread t) = (s.threads t).code.action?.bind Action.store? := rfl
    cases threadStep_moves hs with
    | act a next s₁ th hcode hp =>
      rw [hcode] at hsafe hstore
      rw [hstore, setThread_ledger, (perform_eq_some hp).2.1]
      rcases a with _ | _ | _ | (_ | ⟨x, d⟩ | _ | _) | _
      case ledger.store =>
        -- what the thread has fetched is still the balance
        have htemp := (h.fresh t x hsafe.1.2).2
        refine .inr ⟨x, d, rfl, ?_⟩
        rw [← htemp]
        rfl
      all_goals exact .inl ⟨rfl, rfl⟩
    | _ =>
      rename_i hcode _
      rw [hcode] at hstore
      exact .inl ⟨hstore, rfl⟩

end Steps

/-- What is stored in an `int`, and what a thread has read from one, fits it. -/
structure Stored (s : State n) : Prop where
  owns : ∃ held, Owns s held
  balances : ∀ account, FitsInt (s.ledger.1 account)
  temps : ∀ t, FitsInt (s.threads t).temp

section Stored

variable {s s' : State n} {held : Fin n → Held} {party : Party n}

theorem Owns.wrapBalances (h : Owns s held) (htemps : ∀ t, FitsInt (s.threads t).temp) :
    Owns s.wrapBalances held := by
  refine ⟨h.safe, h.ordered, h.pool, h.locks, h.clock, fun t x hx => ?_⟩
  obtain ⟨hmem, htemp⟩ := h.fresh t x hx
  refine ⟨hmem, htemp.trans ?_⟩
  show s.ledger.1 x = toInt (s.ledger.1 x)
  rw [← htemp, toInt_of_fits (htemps t)]

theorem Stored.step (h : Stored s) (hs : step32 s party = some s') : Stored s' := by
  obtain ⟨b, hb, rfl⟩ := Option.map_eq_some_iff.mp hs
  obtain ⟨held, howns⟩ := h.owns
  obtain ⟨held', howns'⟩ := howns.step hb
  have htemps : ∀ t, FitsInt (b.threads t).temp := by
    intro t
    rcases step_temp hb t with hsame | ⟨x, hx⟩
    · rw [hsame]
      exact h.temps t
    · rw [hx]
      exact h.balances x
  exact ⟨⟨held', howns'.wrapBalances htemps⟩, fun x => toInt_fits _, htemps⟩

theorem Stored.exact_iff (h : Stored s) (hs : step32 s party = some s')
    {numbers : AccountId → Int} {stores : List (AccountId × Int)} (hexact : Exact numbers s stores) :
    Exact numbers s' (stores ++ (s.storeOf? party).toList) ↔ StoreFits s party := by
  obtain ⟨b, hb, rfl⟩ := Option.map_eq_some_iff.mp hs
  obtain ⟨held, howns⟩ := h.owns
  unfold StoreFits Exact
  rcases howns.step_balances hb with ⟨hnone, hsame⟩ | ⟨x, d, hstore, hupdate⟩
  · rw [hnone]
    refine iff_of_true (fun y => ?_) fun e he => absurd he (Option.not_mem_none e)
    show toInt (b.ledger.1 y) = _
    rw [hsame, toInt_of_fits (h.balances y), Option.toList_none, List.append_nil, hexact y]
  · rw [hstore]
    have hbalance : ∀ y, (b.wrapBalances).ledger.1 y =
        if x = y then toInt (s.ledger.1 x + d) else s.ledger.1 y := by
      intro y
      show toInt (b.ledger.1 y) = _
      rw [hupdate]
      rcases eq_or_ne y x with rfl | hy
      · rw [Function.update_self, if_pos rfl]
      · rw [Function.update_of_ne hy, if_neg hy.symm, toInt_of_fits (h.balances y)]
    simp only [hbalance, Option.toList_some, applied_concat, Option.mem_def, Option.some.injEq,
      forall_eq']
    constructor
    · intro hall
      have hx := hall x
      rw [if_pos rfl, if_pos rfl, ← add_assoc, ← hexact x] at hx
      exact toInt_eq_self_iff.mp hx
    · intro hfits y
      rcases eq_or_ne x y with rfl | hy
      · rw [if_pos rfl, if_pos rfl, toInt_of_fits hfits, hexact x, add_assoc]
      · rw [if_neg hy, if_neg hy, add_zero, hexact y]

end Stored

theorem initialState_stored {initial : Ledger} (h : ∀ account, FitsInt (initial.1 account))
    (txs : Fin n → Transaction) : Stored (initialState initial txs) where
  owns := ⟨_, initialState_owns initial txs⟩
  balances := h
  temps t := by
    show FitsInt 0
    decide

theorem bankStart_stored (accounts : List Char) (txs : Fin n → Transaction) :
    Stored (bankStart accounts txs) := by
  refine initialState_stored (fun account => ?_) txs
  show FitsInt (loadAccounts accounts account)
  rw [loadAccounts_eq]
  exact toInt_fits _

/-- The balances are exact all along a run if and only if the numbers of the file fit an `int`, and
so does every balance that the run stores. -/
theorem balances_exact_iff (accounts : List Char) (txs : Fin n → Transaction)
    (schedule : List (Party n)) :
    Always (Exact (fileNumbers accounts)) storeOf? step32 schedule (bankStart accounts txs) [] ↔
      (∀ account, FitsInt (fileNumbers accounts account)) ∧
        EachStep StoreFits step32 schedule (bankStart accounts txs) := by
  rw [always_iff_eachStep Stored (fun _ _ _ hb ha => ha.step hb)
    (fun _ _ _ _ hb ha hP => ha.exact_iff hb hP) (bankStart_stored accounts txs)]
  refine and_congr_left fun _ => forall_congr' fun account => ?_
  rw [← loadAccounts_exact_iff]
  show loadAccounts accounts account = fileNumbers accounts account + 0 ↔ _
  rw [add_zero]

def fullAccount : List Char := "0 2147483647\n".toList

def oneDeposit (_ : Fin 1) : Transaction := ⟨[⟨.deposit, 0, 1, 0⟩], 0⟩

/-- After 19 steps the thread has stored the balance. -/
theorem fullAccount_wraps :
    ((loadTransactions (some "T1 0 DEPOSIT 0 1\n".toList)).map fun table =>
      table.transactions.mapM LoadedTransaction.transaction?) = .ok (some [oneDeposit 0]) ∧
    ¬ Always (Exact (fileNumbers fullAccount)) storeOf? step32 (List.replicate 19 (.thread 0))
      (bankStart fullAccount oneDeposit) [] := by
  refine ⟨by decide +kernel, fun halways => ?_⟩
  have hrun : ∃ s ∈ runSchedule step32 (List.replicate 19 (.thread 0))
      (bankStart fullAccount oneDeposit), s.ledger.1 0 = -2147483648 := by decide +kernel
  have hstores : trace storeOf? step32 (List.replicate 19 (.thread 0))
      (bankStart fullAccount oneDeposit) = [(0, 1)] := by decide +kernel
  have hnumber : fileNumbers fullAccount 0 = 2147483647 := by decide +kernel
  obtain ⟨s, hs, hbalance⟩ := hrun
  have hexact := halways.final hs 0
  rw [hstores, hbalance, hnumber] at hexact
  exact absurd hexact (by decide)

end OsLab.Bank
