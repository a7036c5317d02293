import OsLab.Bank.Machine

/-! The bank functions run one at a time, as the interleavings of their steps should look. -/

namespace OsLab.Bank

namespace Ledger

def getBalance (l : Ledger) (account : AccountId) : Int := l.1 account

def deposit (l : Ledger) (account : AccountId) (amount : Int) : Ledger :=
  (Function.update l.1 account (l.1 account + amount), l.2 - amount)

def withdraw (l : Ledger) (account : AccountId) (amount : Int) : Ledger × Bool :=
  if l.1 account < amount then (l, false)
  else ((Function.update l.1 account (l.1 account - amount), l.2 + amount), true)

def transfer (l : Ledger) (fromId toId : AccountId) (amount : Int) : Ledger × Bool :=
  if fromId = toId then (l, true)
  else if l.1 fromId < amount then (l, false)
  else
    let balances := Function.update l.1 fromId (l.1 fromId - amount)
    ((Function.update balances toId (balances toId + amount), l.2), true)

def outcomeOf (ok : Bool) : Outcome := if ok then .done else .refused

def run (l : Ledger) (op : Operation) : Ledger × Outcome :=
  match op.type with
  | .deposit => (l.deposit op.accountId op.amountCentavos, .done)
  | .withdraw => (l.withdraw op.accountId op.amountCentavos).map id outcomeOf
  | .transfer => (l.transfer op.accountId op.targetAccount op.amountCentavos).map id outcomeOf
  | .balance => (l, .balance (l.getBalance op.accountId))

def runAll (l : Ledger) : List Operation → Ledger × List Outcome
  | [] => (l, [])
  | op :: ops =>
    let (l', outcome) := l.run op
    (runAll l' ops).map id (outcome :: ·)

theorem runAll_concat (l : Ledger) (ops : List Operation) (op : Operation) :
    l.runAll (ops ++ [op]) =
      (((l.runAll ops).1.run op).1, (l.runAll ops).2 ++ [((l.runAll ops).1.run op).2]) := by
  induction ops generalizing l with
  | nil => rfl
  | cons o ops ih =>
    simp only [List.cons_append, runAll, ih]
    rfl

def credit (account : AccountId) (amount : Int) : Ledger := (Pi.single account amount, 0)

theorem update_add (f : AccountId → Int) (x : AccountId) (d : Int) :
    Function.update f x (f x + d) = f + Pi.single x d := by
  funext y
  rcases eq_or_ne y x with rfl | hy
  · simp
  · simp [hy]

theorem deposit_eq (l : Ledger) (x : AccountId) (d : Int) :
    l.deposit x d = l + (credit x d + (0, -d)) := by
  unfold deposit credit
  rw [update_add]
  simp [Prod.ext_iff, sub_eq_add_neg]

theorem withdraw_eq_of_le {l : Ledger} {x : AccountId} {d : Int} (h : d ≤ l.1 x) :
    l.withdraw x d = (l + (credit x (-d) + (0, d)), true) := by
  unfold withdraw credit
  rw [if_neg (not_lt.mpr h), sub_eq_add_neg, update_add]
  simp [Prod.ext_iff]

theorem transfer_eq_of_le {l : Ledger} {x y : AccountId} {d : Int} (hxy : x ≠ y) (h : d ≤ l.1 x) :
    l.transfer x y d = (l + (credit x (-d) + credit y d), true) := by
  unfold transfer credit
  rw [if_neg hxy, if_neg (not_lt.mpr h)]
  dsimp only
  rw [sub_eq_add_neg, update_add, update_add]
  simp [Prod.ext_iff, add_assoc]

def total : Ledger →+ Int where
  toFun l := l.2 + ∑ x, l.1 x
  map_zero' := by simp
  map_add' l l' := by
    simp only [Prod.snd_add, Prod.fst_add, Pi.add_apply, Finset.sum_add_distrib]
    exact add_add_add_comm ..

@[simp] theorem total_credit (x : AccountId) (d : Int) : total (credit x d) = d := by
  simp [total, credit]

@[simp] theorem total_reserve (d : Int) : total ((0, d) : Ledger) = d := by
  simp [total]

theorem total_run (l : Ledger) (op : Operation) : total (l.run op).1 = total l := by
  unfold run
  cases op.type with
  | deposit => simp [deposit_eq]
  | withdraw =>
    dsimp only
    by_cases h : op.amountCentavos ≤ l.1 op.accountId
    · simp [withdraw_eq_of_le h]
    · simp [withdraw, not_le.mp h]
  | transfer =>
    dsimp only
    by_cases hxy : op.accountId = op.targetAccount
    · simp [transfer, hxy]
    · by_cases h : op.amountCentavos ≤ l.1 op.accountId
      · simp [transfer_eq_of_le hxy h]
      · simp [transfer, hxy, not_le.mp h]
  | balance => rfl

theorem total_runAll (l : Ledger) (ops : List Operation) : total (l.runAll ops).1 = total l := by
  induction ops generalizing l with
  | nil => rfl
  | cons op ops ih => exact (ih _).trans (total_run l op)

end Ledger

end OsLab.Bank
