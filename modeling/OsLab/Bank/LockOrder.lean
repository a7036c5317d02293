import OsLab.Bank.Deadlock

/-! Waiting for the account locks. A thread takes them in increasing order of the accounts, so the
threads that wait for each other's locks never form a circle, and while it holds one it waits for
nothing else. -/

namespace OsLab.Bank

open Interleaving

variable {n : Nat}

namespace State

def HoldsLock (s : State n) (t : Fin n) (x : AccountId) : Prop :=
  (s.locks x).writer = some t ∨ t ∈ (s.locks x).readers

/-- The thread `t` comes to the lock of an account and has to wait for `u`: a writer for everyone
who is in, a reader for the writer. An implementation may also make a reader wait behind a writer
that waits itself. -/
inductive WaitsFor (s : State n) (t u : Fin n) : Prop
  | write (x : AccountId) (hnext : s.nextAction t = some (.rwlock x .wrlock))
    (hheld : s.HoldsLock u x)
  | read (x : AccountId) (hnext : s.nextAction t = some (.rwlock x .rdlock))
    (hheld : (s.locks x).writer = some u)
  | behind (x : AccountId) (hnext : s.nextAction t = some (.rwlock x .rdlock))
    (hwriter : s.nextAction u = some (.rwlock x .wrlock)) (hheld : ∃ v, s.HoldsLock v x)

/-- The thread comes to the lock of an account and cannot take it, or may be made to wait. -/
def LockBlocked (s : State n) (t : Fin n) : Prop :=
  (∃ x a, s.nextAction t = some (.rwlock x a) ∧ s.threadStep t = none) ∨ ∃ u, s.WaitsFor t u

end State

open State

def Action.lockRank : Action → Nat
  | rwlock x .rdlock => 2 * x
  | rwlock x .wrlock => 2 * x + 1
  | _ => 0

section Owns

variable {s : State n} {held : Fin n → Held} {t u v : Fin n} {x : AccountId}

theorem Owns.holdsLock_iff (h : Owns s held) :
    s.HoldsLock t x ↔ ∃ mode, (x, mode) ∈ (held t).locks := by
  constructor
  · rintro (hwriter | hreader)
    · exact ⟨.write, ((h.locks x).writer t).mp hwriter⟩
    · exact ⟨.read, ((h.locks x).readers t).mp hreader⟩
  · rintro ⟨mode, hmem⟩
    cases mode with
    | read => exact .inr (((h.locks x).readers t).mpr hmem)
    | write => exact .inl (((h.locks x).writer t).mpr hmem)

/-- While it holds an account lock, a thread takes no other lock than that of a greater account, and
waits for nothing else. -/
theorem Owns.next_of_holdsLock (h : Owns s held) (hheld : s.HoldsLock t x) {a : Action}
    (hnext : s.nextAction t = some a) :
    a ≠ .pool .semWait ∧ a ≠ .pool .lock ∧ a ≠ .tick .lock ∧
      (∀ y, a ≠ .rwlock y .rdlock) ∧ ∀ y, a = .rwlock y .wrlock → x < y := by
  obtain ⟨mode, hmem⟩ := h.holdsLock_iff.mp hheld
  have hlocks : (held t).locks ≠ [] := List.ne_nil_of_mem hmem
  have ha := h.allowed hnext
  refine ⟨?_, ?_, ?_, ?_, ?_⟩
  · rintro rfl
    exact hlocks ha.1.2.2
  · rintro rfl
    exact hlocks ha.2.2
  · rintro rfl
    exact hlocks ha.2.2
  · rintro y rfl
    exact hlocks ha.2.2
  · rintro y rfl
    exact ha.2.2 _ hmem

theorem Owns.not_await_of_holdsLock (h : Owns s held) (hheld : s.HoldsLock t x) (target : Target)
    (next : Code) : (s.threads t).code ≠ .await target next := by
  intro hcode
  obtain ⟨mode, hmem⟩ := h.holdsLock_iff.mp hheld
  have hsafe := h.safe t
  rw [hcode] at hsafe
  exact List.ne_nil_of_mem hmem hsafe.1.2.2

theorem Owns.lt_of_holdsLock (h : Owns s held) (hheld : s.HoldsLock u x) (hwaits : s.WaitsFor u v) :
    ∃ y, s.nextAction u = some (.rwlock y .wrlock) ∧ x < y := by
  cases hwaits with
  | write y hnext _ => exact ⟨y, hnext, (h.next_of_holdsLock hheld hnext).2.2.2.2 y rfl⟩
  | read y hnext _ => exact absurd rfl ((h.next_of_holdsLock hheld hnext).2.2.2.1 y)
  | behind y hnext _ _ => exact absurd rfl ((h.next_of_holdsLock hheld hnext).2.2.2.1 y)

def State.waitRank (s : State n) (t : Fin n) : Nat := (s.nextAction t).elim 0 Action.lockRank

theorem waitRank_of_next {a : Action} (hnext : s.nextAction t = some a) :
    s.waitRank t = a.lockRank := by rw [waitRank, hnext, Option.elim_some]

theorem Owns.waitRank_lt (h : Owns s held) (htu : s.WaitsFor t u) (huv : s.WaitsFor u v) :
    s.waitRank t < s.waitRank u := by
  cases htu with
  | write x hnext hheld =>
    obtain ⟨y, hnext', hlt⟩ := h.lt_of_holdsLock hheld huv
    rw [waitRank_of_next hnext, waitRank_of_next hnext']
    show 2 * x.val + 1 < 2 * y.val + 1
    exact Nat.succ_lt_succ (Nat.mul_lt_mul_of_pos_left hlt Nat.two_pos)
  | read x hnext hheld =>
    obtain ⟨y, hnext', hlt⟩ := h.lt_of_holdsLock (.inl hheld) huv
    rw [waitRank_of_next hnext, waitRank_of_next hnext']
    show 2 * x.val < 2 * y.val + 1
    exact Nat.lt_succ_of_lt (Nat.mul_lt_mul_of_pos_left hlt Nat.two_pos)
  | behind x hnext hwriter _ =>
    rw [waitRank_of_next hnext, waitRank_of_next hwriter]
    exact Nat.lt_succ_self (2 * x.val)

theorem Owns.accountHeld_of_lockBlocked (h : Owns s held) (hblocked : s.LockBlocked t) :
    ∃ x, AccountHeld held x := by
  rcases hblocked with ⟨x, a, hnext, hnone⟩ | ⟨u, hwaits⟩
  · -- the step fails only when the lock is taken
    obtain ⟨next, hcode⟩ := nextAction_eq_some.mp hnext
    simp only [threadStep, hcode, perform, Option.map_eq_none_iff] at hnone
    refine ⟨x, h.accountHeld_of_writer ?_⟩
    rcases a with _ | _ | (_ | _)
    · exact .inl fun hfree => by simp [LockAction.perform, hfree] at hnone
    · by_contra hfree
      push Not at hfree
      simp [LockAction.perform, hfree] at hnone
    · simp [LockAction.perform] at hnone
    · simp [LockAction.perform] at hnone
  · cases hwaits with
    | write x _ hheld => exact ⟨x, u, h.holdsLock_iff.mp hheld⟩
    | read x _ hheld => exact ⟨x, u, h.holdsLock_iff.mp (.inl hheld)⟩
    | behind x _ _ hheld =>
      obtain ⟨v, hv⟩ := hheld
      exact ⟨x, v, h.holdsLock_iff.mp hv⟩

theorem Owns.step_of_holdsLock (h : Owns s held) (hheld : s.HoldsLock t x)
    (hfree : ¬ s.Blocked t) : ¬ s.LockBlocked t ∧ (s.threadStep t).isSome := by
  obtain ⟨mode, hmem⟩ := h.holdsLock_iff.mp hheld
  have hstep : (s.threadStep t).isSome := by
    refine (threadStep_isSome (h.not_finished_of_lock hmem) hfree).resolve_right fun hnext => ?_
    exact (h.next_of_holdsLock hheld hnext).2.2.1 rfl
  refine ⟨?_, hstep⟩
  rintro (⟨y, a, _, hnone⟩ | ⟨u, hwaits⟩)
  · rw [hnone] at hstep
    exact Bool.false_ne_true hstep
  · cases hwaits with
    | write y hnext hother =>
      apply hfree
      refine ⟨_, hnext, ?_⟩
      rcases hother with hwriter | hreader
      · exact .inl (Option.ne_none_iff_exists'.mpr ⟨u, hwriter⟩)
      · exact .inr (Finset.ne_empty_of_mem hreader)
    | read y hnext _ => exact (h.next_of_holdsLock hheld hnext).2.2.2.1 y rfl
    | behind y hnext _ _ => exact (h.next_of_holdsLock hheld hnext).2.2.2.1 y rfl

theorem Owns.exists_holder_step (h : Owns s held) (hx : AccountHeld held x) :
    ∃ u y, s.HoldsLock u y ∧ ¬ s.LockBlocked u ∧ (s.threadStep u).isSome := by
  by_contra hnone
  have hwaits : ∀ y, AccountHeld held y → ∃ z, y < z ∧ AccountHeld held z := by
    rintro y ⟨u, mode, hmem⟩
    apply h.waits_for_greater _ hmem
    by_contra hfree
    have hheld := h.holdsLock_iff.mpr ⟨mode, hmem⟩
    exact hnone ⟨u, y, hheld, h.step_of_holdsLock hheld hfree⟩
  exact not_held_of_ordered hwaits x hx

end Owns

/-- In every state of every run the threads that wait for account locks form no circle, those that
hold one wait for no other thing, and while one is waited for some holder can go on. -/
theorem reaches_lock_ordered {ledger : Ledger} {txs : Fin n → Transaction} {s : State n}
    (h : Reaches step (initialState ledger txs) s) :
    (∀ t, ¬ Relation.TransGen s.WaitsFor t t) ∧
    (∀ t x, s.HoldsLock t x →
      s.nextAction t ≠ some (.pool .semWait) ∧ s.nextAction t ≠ some (.pool .lock) ∧
      s.nextAction t ≠ some (.tick .lock) ∧
      ∀ target next, (s.threads t).code ≠ .await target next) ∧
    ((∃ t, s.LockBlocked t) →
      ∃ u x, s.HoldsLock u x ∧ ¬ s.LockBlocked u ∧ (s.threadStep u).isSome) := by
  obtain ⟨held, howns⟩ := reaches_owns h
  refine ⟨?_, ?_, ?_⟩
  · exact acyclic_of_rank s.waitRank fun _ _ _ => howns.waitRank_lt
  · intro t x hheld
    refine ⟨?_, ?_, ?_, howns.not_await_of_holdsLock hheld⟩
    · exact fun hnext => (howns.next_of_holdsLock hheld hnext).1 rfl
    · exact fun hnext => (howns.next_of_holdsLock hheld hnext).2.1 rfl
    · exact fun hnext => (howns.next_of_holdsLock hheld hnext).2.2.1 rfl
  · rintro ⟨t, hblocked⟩
    obtain ⟨x, hx⟩ := howns.accountHeld_of_lockBlocked hblocked
    exact howns.exists_holder_step hx

/-- The transfer waits for the lock of account 0 while the deposit holds it. -/
theorem reaches_lock_ordered_sample :
    ∃ s : State 2, s.LockBlocked 1 ∧
      ∃ u x, s.HoldsLock u x ∧ ¬ s.LockBlocked u ∧ (s.threadStep u).isSome := by
  have hrun : ∃ s ∈ runSchedule step (sampleSchedule.take 38) (initialState sampleLedger sampleTxs),
      s.nextAction 1 = some (.rwlock 0 .wrlock) ∧ (s.threadStep 1).isNone := by decide +kernel
  obtain ⟨s, hs, hnext, hnone⟩ := hrun
  have hblocked : s.LockBlocked 1 := .inl ⟨0, .wrlock, hnext, Option.isNone_iff_eq_none.mp hnone⟩
  exact ⟨s, hblocked, (reaches_lock_ordered (reaches_of_runSchedule hs)).2.2 ⟨1, hblocked⟩⟩

end OsLab.Bank
