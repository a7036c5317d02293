import OsLab.Bank.Steps

/-! Deadlock. The order of the account locks rules out a circle of threads that wait for each
other's locks. It does not order the slots of the buffer pool: every transfer takes two of them
one after the other, so as many transfers as there are slots can each take their first and wait
for their second for ever. This is the only deadlock of the bank. -/

namespace OsLab.Bank

open Interleaving

variable {n : Nat}

def Code.action? : Code → Option Action
  | act action _ => some action
  | _ => none

namespace State

/-- The action that the thread `t` comes to next. -/
def nextAction (s : State n) (t : Fin n) : Option Action := (s.threads t).code.action?

theorem nextAction_eq_some {s : State n} {t : Fin n} {a : Action} :
    s.nextAction t = some a ↔ ∃ next, (s.threads t).code = .act a next := by
  unfold nextAction
  cases (s.threads t).code <;> simp [Code.action?]

end State

/-- The action cannot be performed now. An implementation may make a reader wait while a writer
is waiting, so such a reader counts as blocked. -/
def Action.Blocked (s : State n) : Action → Prop
  | pool .semWait => s.pool.emptySlots = 0
  | pool .lock => s.pool.poolLock ≠ none
  | rwlock account .rdlock =>
    (s.locks account).writer ≠ none ∨ ∃ u, s.nextAction u = some (.rwlock account .wrlock)
  | rwlock account .wrlock => (s.locks account).writer ≠ none ∨ (s.locks account).readers ≠ ∅
  | _ => False

instance (s : State n) : DecidablePred (Action.Blocked s)
  | .pool .semWait => inferInstanceAs (Decidable (_ = _))
  | .pool .lock => inferInstanceAs (Decidable (_ ≠ _))
  | .pool .countLoad | .pool (.takeSlot _) | .pool .countUnload | .pool (.freeSlot _)
  | .pool .unlock | .pool .semPost => inferInstanceAs (Decidable False)
  | .rwlock _ .rdlock => inferInstanceAs (Decidable (_ ∨ _))
  | .rwlock _ .wrlock => inferInstanceAs (Decidable (_ ∨ _))
  | .rwlock _ (.unlock _) => inferInstanceAs (Decidable False)
  | .tick _ | .ledger _ | .thread _ => inferInstanceAs (Decidable False)

namespace State

/-- The thread waits for a slot, for `pool_lock` or for the lock of an account. -/
def Blocked (s : State n) (t : Fin n) : Prop := ∃ a ∈ s.nextAction t, a.Blocked s

instance (s : State n) (t : Fin n) : Decidable (s.Blocked t) :=
  inferInstanceAs (Decidable (∃ a ∈ s.nextAction t, a.Blocked s))

def Deadlocked (s : State n) : Prop :=
  (∃ t, ¬ s.Finished t) ∧ ∀ t, ¬ s.Finished t → s.Blocked t

instance (s : State n) : Decidable s.Deadlocked := inferInstanceAs (Decidable (_ ∧ _))

end State

def Code.ahead (action : Action) : Code → Nat
  | loop => 0
  | halt => 0
  | act a next => next.ahead action + if a = action then 1 else 0
  | await _ next => next.ahead action
  | check _ _ enough short => max (enough.ahead action) (short.ahead action)

def Code.waits : Code → Nat := ahead (.pool .semWait)

def Code.posts : Code → Nat := ahead (.pool .semPost)

namespace State

def HalfLoaded (s : State n) (t : Fin n) : Prop :=
  0 < (s.threads t).code.waits ∧ (s.threads t).code.waits < (s.threads t).code.posts

instance (s : State n) (t : Fin n) : Decidable (s.HalfLoaded t) :=
  inferInstanceAs (Decidable (_ ∧ _))

def halfLoaded (s : State n) : Finset (Fin n) := Finset.univ.filter fun t => s.HalfLoaded t

/-- The step is not a transfer's `sem_wait` for its first slot while all other slots but one are
first slots of transfers that have not got their second. -/
def SlotSafe (s : State n) : Party n → Prop
  | .timer => True
  | .thread t => s.nextAction t = some (.pool .semWait) → 1 < (s.threads t).code.waits →
    s.halfLoaded.card < bufferPoolSize - 1

instance (s : State n) : DecidablePred s.SlotSafe
  | .timer => inferInstanceAs (Decidable True)
  | .thread _ => inferInstanceAs (Decidable (_ → _))

end State

open State

theorem Safe.permits {c : Code} {h : Held} (hsafe : Safe c h) : h.permits + c.waits = c.posts := by
  unfold Code.waits Code.posts
  induction c generalizing h with
  | loop => rw [Safe] at hsafe; simp [hsafe, Held.nothing, Code.ahead]
  | halt => rw [Safe] at hsafe; simp [hsafe, Held.nothing, Code.ahead]
  | await target next ih => exact ih hsafe.2
  | check x amount enough short ih₁ ih₂ =>
    have h₁ := ih₁ hsafe.2.1
    have h₂ := ih₂ hsafe.2.2
    simp only [Code.ahead]
    omega
  | act a next ih =>
    obtain ⟨ha, hnext⟩ := hsafe
    have h₁ := ih hnext
    cases a with
    | pool a =>
      cases a with
      | semPost =>
        have hpos := ha.2
        simp only [Action.after, PoolAction.after, Code.ahead] at h₁ ⊢
        simp
        omega
      | _ =>
        simp only [Action.after, PoolAction.after, Code.ahead] at h₁ ⊢
        simp
        omega
    | rwlock x a => cases a <;> simpa [Action.after, LockAction.after, Code.ahead] using h₁
    | tick a => cases a <;> simpa [Action.after, TickAction.after, Code.ahead] using h₁
    | ledger a => cases a <;> simpa [Action.after, LedgerAction.after, Code.ahead] using h₁
    | thread a => simpa [Action.after, Code.ahead] using h₁

section Steps

variable {s s' : State n} {held : Fin n → Held} {t : Fin n}

theorem Owns.halfLoaded_iff (h : Owns s held) (t : Fin n) :
    s.HalfLoaded t ↔ 0 < (s.threads t).code.waits ∧ 0 < (held t).permits := by
  have hpermits := (h.safe t).permits
  unfold HalfLoaded
  omega

theorem Owns.halfLoaded_moves (h : Owns s held) (hm : s.Moves t s') (hnew : s'.HalfLoaded t) :
    s.HalfLoaded t ∨
      s.nextAction t = some (.pool .semWait) ∧ 1 < (s.threads t).code.waits := by
  have hsafe := h.safe t
  unfold HalfLoaded at hnew ⊢
  unfold nextAction
  cases hm with
  | commit hcode hops =>
    simp only [setThread_self] at hnew
    exact absurd hnew.1 (by decide)
  | begin op ops hcode hops =>
    -- an operation begins without a permit, so it still waits for all that it posts
    simp only [setThread_self] at hnew
    have hpermits := (safe_executeOperation op).permits
    simp only [Held.slots] at hpermits
    omega
  | act a next s₁ th hcode hp =>
    simp only [setThread_self] at hnew
    rw [hcode]
    by_cases hwait : a = .pool .semWait
    · subst hwait
      exact .inr ⟨rfl, Nat.lt_succ_of_le hnew.1⟩
    · -- without a `sem_wait` the thread has as much to wait for as before
      refine .inl ?_
      unfold Code.waits Code.posts at hnew ⊢
      simp only [Code.ahead, if_neg hwait]
      omega
  | wait target next hcode hlt =>
    simp only [setThread_self] at hnew
    rw [hcode]
    exact .inl hnew
  | proceed target next hcode hle =>
    simp only [setThread_self] at hnew
    rw [hcode]
    exact .inl hnew
  | short x amount enough short hcode hlt =>
    simp only [setThread_self] at hnew
    rw [hcode] at hsafe ⊢
    have hcheck := hsafe.permits
    have hshort := hsafe.2.2.permits
    have hle : short.waits ≤ (Code.check x amount enough short).waits := le_max_right _ _
    omega
  | enough x amount enough short hcode hlt =>
    simp only [setThread_self] at hnew
    rw [hcode] at hsafe ⊢
    have hcheck := hsafe.permits
    have henough := hsafe.2.1.permits
    have hle : enough.waits ≤ (Code.check x amount enough short).waits := le_max_left _ _
    omega

theorem mem_halfLoaded {u : Fin n} : u ∈ s.halfLoaded ↔ s.HalfLoaded u := by simp [halfLoaded]

theorem Owns.card_halfLoaded (h : Owns s held) {party : Party n} (hok : s.SlotSafe party)
    (hs : s.step party = some s') (hcard : s.halfLoaded.card < bufferPoolSize) :
    s'.halfLoaded.card < bufferPoolSize := by
  cases party with
  | timer =>
    obtain ⟨clock', _, rfl⟩ := Option.map_eq_some_iff.mp hs
    exact hcard
  | thread t =>
    have hm := threadStep_moves hs
    have hsub : s'.halfLoaded ⊆ insert t s.halfLoaded := by
      intro u hu
      rcases eq_or_ne u t with rfl | hne
      · exact Finset.mem_insert_self ..
      · rw [mem_halfLoaded, HalfLoaded, hm.threads_of_ne hne] at hu
        exact Finset.mem_insert_of_mem (mem_halfLoaded.mpr hu)
    by_cases hnew : s'.HalfLoaded t
    · rcases h.halfLoaded_moves hm hnew with hold | ⟨hnext, hwaits⟩
      · rw [Finset.insert_eq_of_mem (mem_halfLoaded.mpr hold)] at hsub
        exact (Finset.card_le_card hsub).trans_lt hcard
      · have hfew := hok hnext hwaits
        have hle := (Finset.card_le_card hsub).trans (Finset.card_insert_le t s.halfLoaded)
        omega
    · have hsub' : s'.halfLoaded ⊆ s.halfLoaded := fun u hu => by
        refine (Finset.mem_insert.mp (hsub hu)).resolve_left fun hut => hnew ?_
        exact hut ▸ mem_halfLoaded.mp hu
      exact (Finset.card_le_card hsub').trans_lt hcard

theorem Owns.not_finished (h : Owns s held) (hheld : held t ≠ .nothing) : ¬ s.Finished t := by
  intro hfinished
  have hsafe := h.safe t
  rw [hfinished] at hsafe
  exact hheld hsafe

theorem Owns.allowed (h : Owns s held) {a : Action} (hnext : s.nextAction t = some a) :
    a.Allowed (held t) := by
  obtain ⟨next, hcode⟩ := nextAction_eq_some.mp hnext
  have hsafe := h.safe t
  rw [hcode] at hsafe
  exact hsafe.1

def AccountHeld (held : Fin n → Held) (x : AccountId) : Prop := ∃ t mode, (x, mode) ∈ (held t).locks

theorem Owns.accountHeld_of_writer (h : Owns s held) {x : AccountId}
    (hx : (s.locks x).writer ≠ none ∨ (s.locks x).readers ≠ ∅) : AccountHeld held x := by
  rcases hx with hwriter | hreaders
  · obtain ⟨u, hu⟩ := Option.ne_none_iff_exists'.mp hwriter
    exact ⟨u, .write, ((h.locks x).writer u).mp hu⟩
  · obtain ⟨u, hu⟩ := Finset.nonempty_iff_ne_empty.mpr hreaders
    exact ⟨u, .read, ((h.locks x).readers u).mp hu⟩

theorem Owns.waits_for_greater (h : Owns s held) (hblocked : s.Blocked t) {x : AccountId}
    {mode : LockMode} (hmem : (x, mode) ∈ (held t).locks) : ∃ y, x < y ∧ AccountHeld held y := by
  have hlocks : (held t).locks ≠ [] := List.ne_nil_of_mem hmem
  obtain ⟨a, hnext, hblocked⟩ := hblocked
  have ha := h.allowed hnext
  cases a with
  | pool a =>
    cases a with
    | semWait => exact absurd ha.1.2.2 hlocks
    | lock => exact absurd ha.2.2 hlocks
    | _ => exact hblocked.elim
  | rwlock y a =>
    cases a with
    | rdlock => exact absurd ha.2.2 hlocks
    | wrlock => exact ⟨y, ha.2.2 _ hmem, h.accountHeld_of_writer hblocked⟩
    | unlock _ => exact hblocked.elim
  | _ => exact hblocked.elim

theorem Owns.not_finished_of_lock (h : Owns s held) {x : AccountId} {mode : LockMode}
    (hmem : (x, mode) ∈ (held t).locks) : ¬ s.Finished t :=
  h.not_finished fun hnone => by simp [hnone, Held.nothing] at hmem

theorem Owns.deadlocked_semWait (h : Owns s held) (hdead : s.Deadlocked) (hu : ¬ s.Finished t) :
    s.nextAction t = some (.pool .semWait) ∧ s.pool.emptySlots = 0 := by
  have hnone : ∀ x, ¬ AccountHeld held x :=
    not_held_of_ordered fun _ ⟨u, _, hmem⟩ =>
      h.waits_for_greater (hdead.2 u (h.not_finished_of_lock hmem)) hmem
  -- whoever holds `pool_lock` takes nothing else, so it could go on
  have hpool : s.pool.poolLock = none := by
    by_contra hsome
    obtain ⟨u, hholder⟩ := Option.ne_none_iff_exists'.mp hsome
    have hown : (held u).pool = true := (h.pool.lock u).mp hholder
    obtain ⟨a, hnext, hblocked⟩ := hdead.2 u (h.not_finished fun hn => by simp [hn, Held.nothing] at hown)
    have ha := h.allowed hnext
    cases a with
    | pool a =>
      cases a with
      | semWait => simp [ha.1.1] at hown
      | lock => simp [ha.1] at hown
      | _ => exact hblocked
    | rwlock y a =>
      cases a with
      | rdlock => simp [ha.1] at hown
      | wrlock => simp [ha.1] at hown
      | unlock _ => exact hblocked
    | _ => exact hblocked
  -- a writer would wait for an account, and none is held
  have hwriter : ∀ u x, s.nextAction u ≠ some (.rwlock x .wrlock) := by
    intro u x hnext
    have hunfinished : ¬ s.Finished u := fun hf => by
      obtain ⟨next, hcode⟩ := nextAction_eq_some.mp hnext
      exact Code.noConfusion (hcode.symm.trans hf)
    obtain ⟨a, hnext', hblocked⟩ := hdead.2 u hunfinished
    obtain rfl := Option.some.inj (hnext.symm.trans hnext')
    exact hnone x (h.accountHeld_of_writer hblocked)
  obtain ⟨a, hnext, hblocked⟩ := hdead.2 t hu
  cases a with
  | pool a =>
    cases a with
    | semWait => exact ⟨hnext, hblocked⟩
    | lock => exact absurd hpool hblocked
    | _ => exact hblocked.elim
  | rwlock x a =>
    cases a with
    | rdlock =>
      rcases hblocked with hw | ⟨u, hu⟩
      · exact absurd (h.accountHeld_of_writer (.inl hw)) (hnone x)
      · exact absurd hu (hwriter u x)
    | wrlock => exact absurd hnext (hwriter t x)
    | unlock _ => exact hblocked.elim
  | _ => exact hblocked.elim

theorem Owns.deadlocked_card (h : Owns s held) (hdead : s.Deadlocked) :
    bufferPoolSize ≤ s.halfLoaded.card := by
  -- a thread that waits for a slot holds one permit at most, and then it is half-loaded
  have hpermits : ∀ t, (held t).permits ≤ if t ∈ s.halfLoaded then 1 else 0 := by
    intro t
    by_cases hfinished : s.Finished t
    · have hsafe := h.safe t
      rw [hfinished] at hsafe
      have hzero : (held t).permits = 0 := by rw [hsafe]; rfl
      omega
    · obtain ⟨hnext, _⟩ := h.deadlocked_semWait hdead hfinished
      have hle := (h.allowed hnext).2
      have hwaits : 0 < (s.threads t).code.waits := by
        obtain ⟨next, hcode⟩ := nextAction_eq_some.mp hnext
        rw [hcode]
        exact Nat.succ_pos _
      have hhalf : t ∈ s.halfLoaded ↔ 0 < (held t).permits :=
        mem_halfLoaded.trans ((h.halfLoaded_iff t).trans (and_iff_right hwaits))
      by_cases hpos : 0 < (held t).permits
      · rwa [if_pos (hhalf.mpr hpos)]
      · omega
  obtain ⟨⟨t, hunfinished⟩, _⟩ := id hdead
  have htotal := h.pool.permits
  rw [(h.deadlocked_semWait hdead hunfinished).2, zero_add] at htotal
  calc bufferPoolSize = ∑ t, (held t).permits := htotal.symm
    _ ≤ ∑ t, if t ∈ s.halfLoaded then 1 else 0 := Finset.sum_le_sum fun t _ => hpermits t
    _ = s.halfLoaded.card := by simp

end Steps

/-- A thread that is neither finished nor blocked can go on, or only waits for its turn at
`tick_lock`. -/
theorem threadStep_isSome {s : State n} {t : Fin n} (ht : ¬ s.Finished t)
    (hblocked : ¬ s.Blocked t) :
    (s.threadStep t).isSome ∨ s.nextAction t = some (.tick .lock) := by
  cases hcode : (s.threads t).code with
  | halt => exact absurd hcode ht
  | loop => exact .inl (by unfold threadStep; simp only [hcode]; split <;> rfl)
  | await target next => exact .inl (by unfold threadStep; simp only [hcode]; split <;> rfl)
  | check x amount enough short => exact .inl (by simp [threadStep, hcode])
  | act a next =>
    have hnext : s.nextAction t = some a := nextAction_eq_some.mpr ⟨next, hcode⟩
    have hfree : ¬ a.Blocked s := fun hb => hblocked ⟨a, hnext, hb⟩
    have hperform : (s.perform t a).isSome ∨ a = .tick .lock := by
      cases a with
      | pool a =>
        cases a <;> simp_all [perform, PoolAction.perform, Action.Blocked, Nat.pos_iff_ne_zero]
      | rwlock x a =>
        refine .inl ?_
        rw [perform, Option.isSome_map]
        rcases a with _ | _ | (_ | _)
        · simp_all [LockAction.perform, Action.Blocked]
        · simp_all [LockAction.perform, Action.Blocked]
        · rfl
        · rfl
      | tick a => cases a <;> simp [perform, TickAction.perform]
      | ledger a => exact .inl rfl
      | thread a => exact .inl rfl
    rcases hperform with hsome | rfl
    · exact .inl (by simp [threadStep, hcode, hsome])
    · exact .inr hnext

/-- Without a deadlock some transaction that has not ended can go on, or only waits for its turn at
`tick_lock`, which the timer and everyone else give back. -/
theorem exists_step_of_not_deadlocked {s : State n} (h : ¬ s.Deadlocked)
    (hunfinished : ∃ t, ¬ s.Finished t) :
    ∃ t, ¬ s.Finished t ∧ ((s.threadStep t).isSome ∨ s.nextAction t = some (.tick .lock)) := by
  have hfree : ∃ t, ¬ s.Finished t ∧ ¬ s.Blocked t := by
    by_contra hall
    exact h ⟨hunfinished, fun t ht => by_contra fun hb => hall ⟨t, ht, hb⟩⟩
  obtain ⟨t, ht, hblocked⟩ := hfree
  exact ⟨t, ht, threadStep_isSome ht hblocked⟩

theorem initialState_halfLoaded (ledger : Ledger) (txs : Fin n → Transaction) :
    (initialState ledger txs).halfLoaded = ∅ :=
  Finset.filter_eq_empty_iff.mpr fun _ _ h => absurd h.1 (lt_irrefl 0)

/-- A run in which no transfer takes its first slot as the last one does not deadlock. -/
theorem reaches_not_deadlocked {ledger : Ledger} {txs : Fin n → Transaction} {s : State n}
    (h : Reaches (guarded SlotSafe step) (initialState ledger txs) s) : ¬ s.Deadlocked := by
  obtain ⟨⟨held, howns⟩, hcard⟩ := h.invariant
    (fun s => (∃ held, Owns s held) ∧ s.halfLoaded.card < bufferPoolSize)
    (fun a party b hb ⟨⟨_, ha⟩, hfew⟩ => by
      obtain ⟨hok, hstep⟩ := guarded_eq_some.mp hb
      exact ⟨ha.step hstep, ha.card_halfLoaded hok hstep hfew⟩)
    ⟨⟨_, initialState_owns ledger txs⟩, (initialState_halfLoaded ledger txs).symm ▸ Nat.succ_pos 4⟩
  exact fun hdead => absurd (howns.deadlocked_card hdead) (not_le.mpr hcard)

def fiveTransfers (t : Fin 5) : Transaction where
  ops := [⟨.transfer, .ofNat maxAccounts (2 * t), 1, .ofNat maxAccounts (2 * t + 1)⟩]
  startTick := 0

def fiveLedger : Ledger := (fun _ => 10000, 0)

def firstSlots (threads : List (Fin 5)) : List (Party 5) :=
  threads.flatMap fun t => List.replicate 16 (.thread t)

theorem reaches_not_deadlocked_four :
    ∃ s, runSchedule (guarded SlotSafe step) (firstSlots [0, 1, 2, 3])
      (initialState fiveLedger fiveTransfers) = some s ∧ ¬ s.Deadlocked := by
  obtain ⟨s, hs⟩ := Option.isSome_iff_exists.mp
    (show (runSchedule (guarded SlotSafe step) (firstSlots [0, 1, 2, 3])
      (initialState fiveLedger fiveTransfers)).isSome from by decide +kernel)
  exact ⟨s, hs, reaches_not_deadlocked (reaches_of_runSchedule hs)⟩

/-- No two of the transfers have an account in common, and they wait for each other for ever. -/
theorem fiveTransfers_deadlock :
    ∃ s, Reaches step (initialState fiveLedger fiveTransfers) s ∧ s.Deadlocked := by
  have hrun : ∃ s ∈ runSchedule step (firstSlots [0, 1, 2, 3, 4])
      (initialState fiveLedger fiveTransfers), s.Deadlocked := by decide +kernel
  obtain ⟨s, hs, hdead⟩ := hrun
  exact ⟨s, reaches_of_runSchedule hs, hdead⟩

end OsLab.Bank
