import OsLab.Bank.Deadlock
import OsLab.Bank.Sequential

/-! A thread that moves on its own. While all others hold nothing, a thread and the timer alone can
take its code to the next head of the loop, so every order of operations is that of a run; and in
that run every load finds a free slot. -/

namespace OsLab.Bank

open Interleaving State

variable {n : Nat}

/-- The thread's `temp` after the action. -/
def Action.fetched (temp : Int) (l : Ledger) : Action → Int
  | ledger (.fetch account) => l.1 account
  | _ => temp

def Action.statusAfter (status : TxStatus) : Action → TxStatus
  | thread (.setStatus status) => status
  | _ => status

def Code.alone : Code → TxStatus → Int → Ledger → Code × TxStatus × Ledger
  | loop, status, _, l => (loop, status, l)
  | halt, status, _, l => (halt, status, l)
  | act a next, status, temp, l =>
    next.alone (a.statusAfter status) (a.fetched temp l) (a.ledgerAfter temp l)
  | await _ next, status, temp, l => next.alone status temp l
  | check account amount enough short, status, temp, l =>
    if l.1 account < amount then short.alone status temp l else enough.alone status temp l

theorem Thread.after_alone (th : Thread) (s : State n) (a : Action) :
    (th.after s a).status = a.statusAfter th.status ∧
      (th.after s a).temp = a.fetched th.temp s.ledger := by
  cases a with
  | tick a => rcases a with _ | _ | (_ | _ | _ | _) <;> exact ⟨rfl, rfl⟩
  | ledger a => cases a <;> exact ⟨rfl, rfl⟩
  | thread a => cases a <;> exact ⟨rfl, rfl⟩
  | _ => exact ⟨rfl, rfl⟩

section Source

variable {status : TxStatus} {temp : Int} {l : Ledger} {onTrue onFalse : Code}

theorem alone_readTick (var : TickVar) (next : Code) :
    (readTick var next).alone status temp l = next.alone status temp l := rfl

theorem alone_loadAccount (x : AccountId) (next : Code) :
    (loadAccount x next).alone status temp l = next.alone status temp l := rfl

theorem alone_withdraw (x : AccountId) (d : Int) :
    ∃ temp', (withdraw x d onTrue onFalse).alone status temp l =
      if (l.withdraw x d).2 then onTrue.alone status temp' (l.withdraw x d).1
      else onFalse.alone status temp' (l.withdraw x d).1 := by
  by_cases hlt : l.1 x < d
  · refine ⟨temp, ?_⟩
    simp [withdraw, Ledger.withdraw, hlt, Code.rwlock, Code.alone, Action.statusAfter,
      Action.fetched, Action.ledgerAfter]
  · refine ⟨l.1 x, ?_⟩
    simp [withdraw, Ledger.withdraw, hlt, Code.rwlock, Code.ledger, Code.alone, Action.statusAfter,
      Action.fetched, Action.ledgerAfter, LedgerAction.perform, sub_eq_add_neg]

theorem alone_transfer (x y : AccountId) (d : Int) :
    ∃ temp', (transfer x y d onTrue onFalse).alone status temp l =
      if (l.transfer x y d).2 then onTrue.alone status temp' (l.transfer x y d).1
      else onFalse.alone status temp' (l.transfer x y d).1 := by
  by_cases hxy : x = y
  · exact ⟨temp, by simp [transfer, Ledger.transfer, hxy]⟩
  by_cases hlt : l.1 x < d
  · refine ⟨temp, ?_⟩
    simp [transfer, Ledger.transfer, hxy, hlt, Code.rwlock, Code.alone, Action.statusAfter,
      Action.fetched, Action.ledgerAfter]
  · refine ⟨Function.update l.1 x (l.1 x - d) y, ?_⟩
    simp [transfer, Ledger.transfer, hxy, hlt, Code.rwlock, Code.ledger, Code.alone,
      Action.statusAfter, Action.fetched, Action.ledgerAfter, LedgerAction.perform, sub_eq_add_neg]

theorem alone_executeOperation {op : Operation} (hop : (l.run op).2 ≠ .refused) :
    (executeOperation op).alone status temp l = (.loop, status, (l.run op).1) := by
  unfold executeOperation
  cases htype : op.type with
  | deposit =>
    have hrun : l.run op = (l.deposit op.accountId op.amountCentavos, .done) := by
      simp [Ledger.run, htype]
    rw [hrun]
    rfl
  | withdraw =>
    have hrun : l.run op =
        (l.withdraw op.accountId op.amountCentavos).map id Ledger.outcomeOf := by
      simp [Ledger.run, htype]
    have hok : (l.withdraw op.accountId op.amountCentavos).2 = true := by
      by_contra hfalse
      exact hop (by simp [hrun, Ledger.outcomeOf, hfalse])
    rw [hrun, alone_readTick]
    dsimp only
    rw [alone_loadAccount]
    obtain ⟨temp', heq⟩ := alone_withdraw op.accountId op.amountCentavos
    rw [heq, if_pos hok]
    rfl
  | transfer =>
    have hrun : l.run op =
        (l.transfer op.accountId op.targetAccount op.amountCentavos).map id Ledger.outcomeOf := by
      simp [Ledger.run, htype]
    have hok : (l.transfer op.accountId op.targetAccount op.amountCentavos).2 = true := by
      by_contra hfalse
      exact hop (by simp [hrun, Ledger.outcomeOf, hfalse])
    rw [hrun, alone_readTick]
    dsimp only
    rw [alone_loadAccount, alone_loadAccount]
    obtain ⟨temp', heq⟩ := alone_transfer op.accountId op.targetAccount op.amountCentavos
    rw [heq, if_pos hok]
    rfl
  | balance =>
    have hrun : l.run op = (l, .balance (l.getBalance op.accountId)) := by
      simp [Ledger.run, htype]
    rw [hrun]
    rfl

theorem alone_of_refused {op : Operation} (hop : (l.run op).2 = .refused) :
    (executeOperation op).alone status temp l = (.halt, .aborted, (l.run op).1) := by
  unfold executeOperation
  cases htype : op.type with
  | deposit => simp [Ledger.run, htype] at hop
  | withdraw =>
    have hrun : l.run op =
        (l.withdraw op.accountId op.amountCentavos).map id Ledger.outcomeOf := by
      simp [Ledger.run, htype]
    have hfalse : ¬ (l.withdraw op.accountId op.amountCentavos).2 = true := by
      intro hok
      simp [hrun, Ledger.outcomeOf, hok] at hop
    rw [hrun, alone_readTick]
    dsimp only
    rw [alone_loadAccount]
    obtain ⟨temp', heq⟩ := alone_withdraw op.accountId op.amountCentavos
    rw [heq, if_neg hfalse]
    rfl
  | transfer =>
    have hrun : l.run op =
        (l.transfer op.accountId op.targetAccount op.amountCentavos).map id Ledger.outcomeOf := by
      simp [Ledger.run, htype]
    have hfalse : ¬ (l.transfer op.accountId op.targetAccount op.amountCentavos).2 = true := by
      intro hok
      simp [hrun, Ledger.outcomeOf, hok] at hop
    rw [hrun, alone_readTick]
    dsimp only
    rw [alone_loadAccount, alone_loadAccount]
    obtain ⟨temp', heq⟩ := alone_transfer op.accountId op.targetAccount op.amountCentavos
    rw [heq, if_neg hfalse]
    rfl
  | balance => simp [Ledger.run, htype] at hop

end Source

/-- Nobody but the thread `t` holds anything, and the timer is between two ticks. -/
structure Alone (s : State n) (held : Fin n → Held) (t : Fin n) : Prop where
  owns : Owns s held
  others : ∀ u, u ≠ t → held u = .nothing
  sleeping : s.clock.timer = .sleeping
  unlocked : s.clock.tickLock ≠ some .timer

section Alone

variable {s s' : State n} {held : Fin n → Held} {t u : Fin n} {th : Thread}

theorem Alone.swap (h : Alone s (fun _ => .nothing) t) (u : Fin n) :
    Alone s (fun _ => .nothing) u := ⟨h.owns, fun _ _ => rfl, h.sleeping, h.unlocked⟩

theorem Alone.nothing (h : Alone s held t) (ht : held t = .nothing) :
    held = fun _ => .nothing := by
  funext u
  rcases eq_or_ne u t with rfl | hu
  · exact ht
  · exact h.others u hu

theorem Alone.writer_eq_none (h : Alone s held t) {x : AccountId}
    (hx : (x, .write) ∉ (held t).locks) : (s.locks x).writer = none := by
  apply Option.eq_none_iff_forall_ne_some.mpr
  intro u hu
  have hmem := ((h.owns.locks x).writer u).mp hu
  rcases eq_or_ne u t with rfl | hne
  · exact hx hmem
  · rw [h.others u hne] at hmem
    exact List.not_mem_nil hmem

theorem Alone.readers_eq_empty (h : Alone s held t) {x : AccountId}
    (hx : (x, .read) ∉ (held t).locks) : (s.locks x).readers = ∅ := by
  apply Finset.eq_empty_of_forall_notMem
  intro u hu
  have hmem := ((h.owns.locks x).readers u).mp hu
  rcases eq_or_ne u t with rfl | hne
  · exact hx hmem
  · rw [h.others u hne] at hmem
    exact List.not_mem_nil hmem

theorem Alone.poolLock_eq_none (h : Alone s held t) (hpool : (held t).pool = false) :
    s.pool.poolLock = none := by
  apply Option.eq_none_iff_forall_ne_some.mpr
  intro u hu
  have hheld : (held u).pool = true := (h.owns.pool.lock u).mp hu
  rcases eq_or_ne u t with rfl | hne
  · exact Bool.false_ne_true (hpool.symm.trans hheld)
  · rw [h.others u hne] at hheld
    exact Bool.false_ne_true hheld

theorem Alone.tickLock_eq_none (h : Alone s held t) (htick : (held t).tick = false) :
    s.clock.tickLock = none := by
  apply Option.eq_none_iff_forall_ne_some.mpr
  rintro (_ | u) hu
  · exact h.unlocked hu
  have hheld : (held u).tick = true := (h.owns.clock.lock u).mp hu
  rcases eq_or_ne u t with rfl | hne
  · exact Bool.false_ne_true (htick.symm.trans hheld)
  · rw [h.others u hne] at hheld
    exact Bool.false_ne_true hheld

theorem Alone.emptySlots_pos (h : Alone s held t) (hpermits : (held t).permits ≤ 1) :
    0 < s.pool.emptySlots := by
  have hsum : ∑ u, (held u).permits = (held t).permits := by
    apply Finset.sum_eq_single_of_mem t (Finset.mem_univ t)
    intro u _ hu
    rw [h.others u hu]
    rfl
  have htotal : s.pool.emptySlots + (held t).permits = 5 := hsum ▸ h.owns.pool.permits
  omega

theorem Alone.perform (h : Alone s held t) {a : Action} (ha : a.Allowed (held t)) :
    ∃ s' th, s.perform t a = some (s', th) := by
  have hsome : (s.perform t a).isSome := by
    cases a with
    | pool a =>
      cases a with
      | semWait =>
        have hpos := h.emptySlots_pos ha.2
        simp [State.perform, PoolAction.perform, hpos]
      | lock =>
        have hfree := h.poolLock_eq_none ha.1
        simp [State.perform, PoolAction.perform, hfree]
      | _ => rfl
    | rwlock x a =>
      cases a with
      | rdlock =>
        have hfree := h.writer_eq_none (x := x) (by simp [ha.2.2])
        simp [State.perform, LockAction.perform, hfree]
      | wrlock =>
        -- an account that the thread holds itself would not be greater than itself
        have hnot : ∀ mode, (x, mode) ∉ (held t).locks := fun mode hmem =>
          lt_irrefl x (ha.2.2 _ hmem)
        have hfree := h.writer_eq_none (hnot .write)
        have hempty := h.readers_eq_empty (hnot .read)
        simp [State.perform, LockAction.perform, hfree, hempty]
      | unlock mode => cases mode <;> rfl
    | tick a =>
      cases a with
      | lock =>
        have hfree := h.tickLock_eq_none ha.2.1
        simp [State.perform, TickAction.perform, hfree]
      | _ => rfl
    | ledger a => rfl
    | thread a => rfl
  obtain ⟨⟨s', th⟩, hp⟩ := Option.isSome_iff_exists.mp hsome
  exact ⟨s', th, hp⟩

/-- `s'` comes after `s` by steps of the thread `t` and of the timer. -/
structure OnlyMoves (t : Fin n) (s s' : State n) : Prop where
  reaches : Reaches step s s'
  others : ∀ u, u ≠ t → s'.threads u = s.threads u
  ops : (s'.threads t).ops = (s.threads t).ops

theorem OnlyMoves.refl (t : Fin n) (s : State n) : OnlyMoves t s s := ⟨.refl, fun _ _ => rfl, rfl⟩

theorem OnlyMoves.trans {s'' : State n} (h : OnlyMoves t s s') (h' : OnlyMoves t s' s'') :
    OnlyMoves t s s'' :=
  ⟨h.reaches.trans h'.reaches, fun u hu => (h'.others u hu).trans (h.others u hu),
    h'.ops.trans h.ops⟩

theorem OnlyMoves.of_step (hs : s.step (.thread t) = some s')
    (hops : (s'.threads t).ops = (s.threads t).ops) : OnlyMoves t s s' :=
  ⟨.single ⟨.thread t, hs⟩, fun _ hu => (threadStep_moves hs).threads_of_ne hu, hops⟩

/-- The thread has come to a `sem_wait`, and there is no free slot. -/
def State.FindsFull (s : State n) (t : Fin n) : Prop :=
  s.nextAction t = some (.pool .semWait) ∧ s.pool.emptySlots = 0

instance (s : State n) (t : Fin n) : Decidable (s.FindsFull t) :=
  inferInstanceAs (Decidable (_ ∧ _))

def State.FindsRoom (s : State n) : Party n → Prop
  | .timer => True
  | .thread t => ∀ s' ∈ s.threadStep t, ¬ s'.FindsFull t

instance (s : State n) : DecidablePred s.FindsRoom
  | .timer => inferInstanceAs (Decidable True)
  | .thread _ => inferInstanceAs (Decidable (∀ _ ∈ _, _))

theorem Alone.not_findsFull (h : Alone s held t) : ¬ s.FindsFull t := by
  rintro ⟨hnext, hempty⟩
  obtain ⟨next, hcode⟩ := nextAction_eq_some.mp hnext
  have hsafe := h.owns.safe t
  rw [hcode] at hsafe
  have hpos := h.emptySlots_pos hsafe.1.2
  omega

theorem Alone.step_room (h : Alone s' held t) (hs : s.step (.thread t) = some s') :
    guarded FindsRoom step s (.thread t) = some s' := by
  refine guarded_eq_some.mpr ⟨fun b hb => ?_, hs⟩
  obtain rfl : s' = b := Option.some.inj (hs.symm.trans hb)
  exact h.not_findsFull

structure FreeMoves (t : Fin n) (s s' : State n) : Prop extends OnlyMoves t s s' where
  free : Reaches (guarded FindsRoom step) s s'

theorem FreeMoves.refl (t : Fin n) (s : State n) : FreeMoves t s s := ⟨.refl t s, .refl⟩

theorem FreeMoves.trans {s'' : State n} (h : FreeMoves t s s') (h' : FreeMoves t s' s'') :
    FreeMoves t s s'' := ⟨h.toOnlyMoves.trans h'.toOnlyMoves, h.free.trans h'.free⟩

theorem FreeMoves.of_step (hs : s.step (.thread t) = some s')
    (hops : (s'.threads t).ops = (s.threads t).ops) (h : Alone s' held t) : FreeMoves t s s' :=
  ⟨.of_step hs hops, .single ⟨.thread t, h.step_room hs⟩⟩

theorem perform_clock {a : Action} (hp : s.perform t a = some (s', th)) :
    s'.clock.timer = s.clock.timer ∧
      (s'.clock.tickLock = some .timer → s.clock.tickLock = some .timer) ∧
      s'.clock.globalTick = s.clock.globalTick := by
  cases a with
  | tick a =>
    obtain ⟨clock', hpart, heq⟩ := Option.map_eq_some_iff.mp hp
    obtain ⟨rfl, rfl⟩ := Prod.mk.inj heq
    cases a with
    | lock =>
      rw [TickAction.perform] at hpart
      split_ifs at hpart
      obtain rfl := Option.some.inj hpart
      exact ⟨rfl, fun hlock => by simp at hlock, rfl⟩
    | unlock =>
      obtain rfl := Option.some.inj hpart
      exact ⟨rfl, fun hlock => by simp at hlock, rfl⟩
    | read var =>
      obtain rfl := Option.some.inj hpart
      exact ⟨rfl, id, rfl⟩
  | _ =>
    have hclock : s'.clock = s.clock := (perform_frame hp).2.2 (by simp)
    rw [hclock]
    exact ⟨rfl, id, rfl⟩

theorem Alone.act (h : Alone s held t) {a : Action} {next : Code}
    (hcode : (s.threads t).code = .act a next) :
    ∃ s' held', FreeMoves t s s' ∧ Alone s' held' t ∧
      s'.threads t = { (s.threads t).after s a with code := next } ∧
      s'.ledger = a.ledgerAfter (s.threads t).temp s.ledger ∧
      s'.clock.globalTick = s.clock.globalTick := by
  have hsafe := h.owns.safe t
  rw [hcode] at hsafe
  obtain ⟨s₁, th, hp⟩ := h.perform hsafe.1
  obtain ⟨hthreads, hledger, rfl⟩ := perform_eq_some hp
  obtain ⟨htimer, hlock, htick⟩ := perform_clock hp
  have hstep : s.step (.thread t) =
      some (s₁.setThread t { (s.threads t).after s a with code := next }) := by
    simp [step, threadStep, hcode, hp]
  have halone : Alone (s₁.setThread t { (s.threads t).after s a with code := next })
      (Function.update held t (a.after (held t))) t := by
    refine ⟨h.owns.act hcode hp, fun u hu => ?_, htimer.trans h.sleeping, fun heq => ?_⟩
    · rw [Function.update_of_ne hu]
      exact h.others u hu
    · exact h.unlocked (hlock heq)
  refine ⟨_, _, .of_step hstep ?_ halone, halone, ?_, hledger, htick⟩
  · rw [setThread_self]
    exact (s.threads t).after_ops s a
  · rw [setThread_self]

theorem Alone.timer (h : Alone s held t) (htick : (held t).tick = false) :
    ∃ s', FreeMoves t s s' ∧ Alone s' held t ∧ s'.threads = s.threads ∧ s'.ledger = s.ledger ∧
      s'.clock.globalTick = s.clock.globalTick + 1 := by
  have hfree := h.tickLock_eq_none htick
  have hsleep := h.sleeping
  have hlock : s.clock.timerStep = some ⟨s.clock.globalTick, some .timer, .locked⟩ := by
    simp [Clock.timerStep, hsleep, hfree]
  have hlocked := h.owns.timerStep hlock
  have hticked : Owns { s with clock := ⟨s.clock.globalTick + 1, some .timer, .ticked⟩ } held :=
    hlocked.timerStep rfl
  have hown : Owns { s with clock := ⟨s.clock.globalTick + 1, none, .sleeping⟩ } held :=
    hticked.timerStep rfl
  have hfirst : s.step .timer =
      some { s with clock := ⟨s.clock.globalTick, some .timer, .locked⟩ } :=
    congrArg (Option.map _) hlock
  have hfree : Reaches (guarded FindsRoom step) s
      { s with clock := ⟨s.clock.globalTick + 1, none, .sleeping⟩ } :=
    .head ⟨.timer, guarded_eq_some.mpr ⟨trivial, hfirst⟩⟩
      (.head ⟨.timer, rfl⟩ (.single ⟨.timer, rfl⟩))
  exact ⟨_, ⟨⟨hfree.of_guarded, fun _ _ => rfl, rfl⟩, hfree⟩, ⟨hown, h.others, rfl, by simp⟩,
    rfl, rfl, rfl⟩

theorem Alone.wait (h : Alone s held t) {target : Target} {next : Code}
    (hcode : (s.threads t).code = .await target next)
    (hlt : s.clock.globalTick < target.value (s.threads t)) :
    ∃ s' held', FreeMoves t s s' ∧ Alone s' held' t ∧ s'.threads t = s.threads t ∧
      s'.ledger = s.ledger ∧ s'.clock.globalTick = s.clock.globalTick + 1 := by
  have hstep : s.step (.thread t) =
      some (State.setThread { s with clock := { s.clock with tickLock := none } } t
        { s.threads t with code := .act (.tick .lock) (.await target next) }) := by
    simp [step, threadStep, hcode, hlt]
  have halone : Alone (State.setThread { s with clock := { s.clock with tickLock := none } } t
      { s.threads t with code := .act (.tick .lock) (.await target next) })
      (Function.update held t { held t with tick := false }) t := by
    refine ⟨h.owns.wait hcode, fun u hu => ?_, h.sleeping, by simp⟩
    rw [Function.update_of_ne hu]
    exact h.others u hu
  have hmoves := FreeMoves.of_step hstep (by simp) halone
  -- `pthread_cond_wait` has given `tick_lock` back, so the timer comes round before the thread
  obtain ⟨s₁, hmoves₁, halone₁, hthreads₁, hledger₁, htick₁⟩ := halone.timer (by simp)
  obtain ⟨s₂, held₂, hmoves₂, halone₂, hthread₂, hledger₂, htick₂⟩ :=
    halone₁.act (a := .tick .lock) (by simp [hthreads₁]; rfl)
  refine ⟨s₂, held₂, (hmoves.trans hmoves₁).trans hmoves₂, halone₂, ?_, ?_, ?_⟩
  · rw [hthread₂, hthreads₁, setThread_self, ← hcode]
    rfl
  · exact hledger₂.trans hledger₁
  · exact htick₂.trans htick₁

theorem Alone.goto (h : Alone s held t) {next : Code} (hsafe : Safe next (held t))
    (hstep : s.step (.thread t) = some (s.setThread t { s.threads t with code := next })) :
    FreeMoves t s (s.setThread t { s.threads t with code := next }) ∧
      Alone (s.setThread t { s.threads t with code := next }) held t := by
  have halone : Alone (s.setThread t { s.threads t with code := next }) held t :=
    ⟨h.owns.goto hsafe rfl, h.others, h.sleeping, h.unlocked⟩
  refine ⟨.of_step hstep ?_ halone, halone⟩
  rw [setThread_self]

theorem Alone.await (h : Alone s held t) {target : Target} {next : Code}
    (hcode : (s.threads t).code = .await target next) :
    ∃ s' held', FreeMoves t s s' ∧ Alone s' held' t ∧
      s'.threads t = { s.threads t with code := next } ∧ s'.ledger = s.ledger := by
  obtain ⟨k, hk⟩ : ∃ k : Nat, target.value (s.threads t) ≤ s.clock.globalTick + k :=
    ⟨(target.value (s.threads t) - s.clock.globalTick).toNat, by omega⟩
  induction k generalizing s held with
  | zero =>
    have hnot : ¬ s.clock.globalTick < target.value (s.threads t) := by omega
    have hstep : s.step (.thread t) =
        some (s.setThread t { s.threads t with code := next }) := by
      simp [step, threadStep, hcode, hnot]
    have hsafe := h.owns.safe t
    rw [hcode] at hsafe
    obtain ⟨hmoves, halone⟩ := h.goto hsafe.2 hstep
    refine ⟨_, held, hmoves, halone, ?_, rfl⟩
    rw [setThread_self]
  | succ k ih =>
    -- each sleep of the timer brings the target one tick closer
    by_cases hlt : s.clock.globalTick < target.value (s.threads t)
    · obtain ⟨s₁, held₁, hmoves₁, halone₁, hthread₁, hledger₁, htick₁⟩ := h.wait hcode hlt
      have hcode₁ : (s₁.threads t).code = .await target next := hthread₁ ▸ hcode
      have hk₁ : target.value (s₁.threads t) ≤ s₁.clock.globalTick + k := by
        rw [hthread₁, htick₁]
        push_cast at hk
        omega
      obtain ⟨s₂, held₂, hmoves₂, halone₂, hthread₂, hledger₂⟩ := ih halone₁ hcode₁ hk₁
      refine ⟨s₂, held₂, hmoves₁.trans hmoves₂, halone₂, ?_, hledger₂.trans hledger₁⟩
      rw [hthread₂, hthread₁]
    · exact ih h hcode (by omega)

theorem Alone.arrives (h : Alone s held t) :
    ∃ s', FreeMoves t s s' ∧ Alone s' (fun _ => .nothing) t ∧
      ((s'.threads t).code, (s'.threads t).status, s'.ledger) =
        (s.threads t).code.alone (s.threads t).status (s.threads t).temp s.ledger := by
  obtain ⟨c, hcode⟩ : ∃ c, (s.threads t).code = c := ⟨_, rfl⟩
  have hsafe := h.owns.safe t
  rw [hcode] at hsafe
  induction c generalizing s held with
  | loop => exact ⟨s, .refl t s, h.nothing hsafe ▸ h, by rw [hcode]; rfl⟩
  | halt => exact ⟨s, .refl t s, h.nothing hsafe ▸ h, by rw [hcode]; rfl⟩
  | act a next ih =>
    obtain ⟨s₁, held₁, hmoves₁, halone₁, hthread₁, hledger₁, _⟩ := h.act hcode
    have hcode₁ : (s₁.threads t).code = next := by rw [hthread₁]
    obtain ⟨s₂, hmoves₂, halone₂, hfinal⟩ := ih halone₁ hcode₁ (hcode₁ ▸ halone₁.owns.safe t)
    refine ⟨s₂, hmoves₁.trans hmoves₂, halone₂, hfinal.trans ?_⟩
    obtain ⟨hstatus, htemp⟩ := (s.threads t).after_alone s a
    rw [hcode, hthread₁, hledger₁]
    show next.alone _ _ _ = next.alone _ _ _
    rw [← hstatus, ← htemp]
  | await target next ih =>
    obtain ⟨s₁, held₁, hmoves₁, halone₁, hthread₁, hledger₁⟩ := h.await hcode
    have hcode₁ : (s₁.threads t).code = next := by rw [hthread₁]
    obtain ⟨s₂, hmoves₂, halone₂, hfinal⟩ := ih halone₁ hcode₁ (hcode₁ ▸ halone₁.owns.safe t)
    refine ⟨s₂, hmoves₁.trans hmoves₂, halone₂, hfinal.trans ?_⟩
    rw [hcode, hthread₁, hledger₁]
    rfl
  | check x amount enough short ih₁ ih₂ =>
    by_cases hlt : s.ledger.1 x < amount
    · have hstep : s.step (.thread t) =
          some (s.setThread t { s.threads t with code := short }) := by
        simp [step, threadStep, hcode, hlt]
      obtain ⟨hmoves₁, halone₁⟩ := h.goto hsafe.2.2 hstep
      obtain ⟨s₂, hmoves₂, halone₂, hfinal⟩ := ih₂ halone₁ (by simp) hsafe.2.2
      refine ⟨s₂, hmoves₁.trans hmoves₂, halone₂, hfinal.trans ?_⟩
      rw [setThread_self, hcode, Code.alone, if_pos hlt]
      rfl
    · have hstep : s.step (.thread t) =
          some (s.setThread t { s.threads t with code := enough }) := by
        simp [step, threadStep, hcode, hlt]
      obtain ⟨hmoves₁, halone₁⟩ := h.goto hsafe.2.1 hstep
      obtain ⟨s₂, hmoves₂, halone₂, hfinal⟩ := ih₁ halone₁ (by simp) hsafe.2.1
      refine ⟨s₂, hmoves₁.trans hmoves₂, halone₂, hfinal.trans ?_⟩
      rw [setThread_self, hcode, Code.alone, if_neg hlt]
      rfl

end Alone

def Rested (s : State n) : Prop := ∀ t, Alone s (fun _ => .nothing) t

section Rested

variable {initial : Ledger} {txs : Fin n → Transaction} {s : State n} {t : Fin n}

theorem initialState_rested (initial : Ledger) (txs : Fin n → Transaction) :
    Rested (initialState initial txs) := by
  intro t
  refine ⟨initialState_owns initial txs, fun _ _ => rfl, rfl, ?_⟩
  simp [initialState, initTimer]

theorem Rested.arrives (h : Rested s) (th : Thread) (hsafe : Safe th.code .nothing)
    (htemp : th.temp = (s.threads t).temp)
    (hstep : s.step (.thread t) = some (s.setThread t th)) :
    ∃ s', Reaches (guarded FindsRoom step) s s' ∧ Rested s' ∧
      (∀ u, u ≠ t → s'.threads u = s.threads u) ∧ (s'.threads t).ops = th.ops ∧
      ((s'.threads t).code, (s'.threads t).status, s'.ledger) =
        th.code.alone th.status th.temp s.ledger := by
  have halone : Alone (s.setThread t th) (fun _ => .nothing) t :=
    ⟨(h t).owns.goto hsafe htemp, fun _ _ => rfl, (h t).sleeping, (h t).unlocked⟩
  obtain ⟨s', hmoves, halone', hfinal⟩ := halone.arrives
  rw [setThread_self, setThread_ledger] at hfinal
  refine ⟨s', .head ⟨_, halone.step_room hstep⟩ hmoves.free, halone'.swap, fun u hu => ?_, ?_, hfinal⟩
  · exact (hmoves.others u hu).trans ((threadStep_moves hstep).threads_of_ne hu)
  · rw [hmoves.ops, setThread_self]

theorem Rested.execute (h : Rested s) {op : Operation} {ops : List Operation}
    (hcode : (s.threads t).code = .loop) (hops : (s.threads t).ops = op :: ops) :
    ∃ s', Reaches (guarded FindsRoom step) s s' ∧ Rested s' ∧
      (∀ u, u ≠ t → s'.threads u = s.threads u) ∧ (s'.threads t).ops = ops ∧
      (s'.threads t).code = (if (s.ledger.run op).2 = .refused then .halt else .loop) ∧
      s'.ledger = (s.ledger.run op).1 := by
  have hstep : s.step (.thread t) =
      some (s.setThread t { s.threads t with code := executeOperation op, ops := ops }) := by
    simp [step, threadStep, hcode, hops]
  obtain ⟨s', hreach, hrested, hothers, hrest, hfinal⟩ :=
    h.arrives { s.threads t with code := executeOperation op, ops := ops }
      (safe_executeOperation op) rfl hstep
  refine ⟨s', hreach, hrested, hothers, hrest, ?_⟩
  by_cases hop : (s.ledger.run op).2 = .refused
  · rw [alone_of_refused hop] at hfinal
    simp only [Prod.mk.injEq] at hfinal
    rw [if_pos hop]
    exact ⟨hfinal.1, hfinal.2.2⟩
  · rw [alone_executeOperation hop] at hfinal
    simp only [Prod.mk.injEq] at hfinal
    rw [if_neg hop]
    exact ⟨hfinal.1, hfinal.2.2⟩

theorem Rested.operation (h : Rested s) {op : Operation} {ops : List Operation}
    (hcode : (s.threads t).code = .loop) (hops : (s.threads t).ops = op :: ops)
    (hop : (s.ledger.run op).2 ≠ .refused) :
    ∃ s', Reaches step s s' ∧ Rested s' ∧ (∀ u, u ≠ t → s'.threads u = s.threads u) ∧
      (s'.threads t).code = .loop ∧ (s'.threads t).ops = ops ∧
      s'.ledger = (s.ledger.run op).1 := by
  obtain ⟨s', hreach, hrested, hothers, hrest, hend, hledger⟩ := h.execute hcode hops
  exact ⟨s', hreach.of_guarded, hrested, hothers, hend.trans (if_neg hop), hrest, hledger⟩

theorem Rested.commit (h : Rested s) (hcode : (s.threads t).code = .loop)
    (hops : (s.threads t).ops = []) :
    ∃ s', Reaches (guarded FindsRoom step) s s' ∧ Rested s' ∧
      (∀ u, u ≠ t → s'.threads u = s.threads u) ∧ (s'.threads t).ops = [] ∧
      ((s'.threads t).code = .halt ∧ (s'.threads t).status = .committed) ∧
      s'.ledger = s.ledger := by
  have hstep : s.step (.thread t) =
      some (s.setThread t { s.threads t with code := commitTransaction }) := by
    simp [step, threadStep, hcode, hops]
  obtain ⟨s', hreach, hrested, hothers, hrest, hfinal⟩ :=
    h.arrives { s.threads t with code := commitTransaction } safe_commitTransaction rfl hstep
  have hend : commitTransaction.alone (s.threads t).status (s.threads t).temp s.ledger =
      (.halt, .committed, s.ledger) := rfl
  rw [hend] at hfinal
  simp only [Prod.mk.injEq] at hfinal
  exact ⟨s', hreach, hrested, hothers, hrest.trans hops, ⟨hfinal.1, hfinal.2.1⟩, hfinal.2.2⟩

theorem exists_all_started (initial : Ledger) (txs : Fin n → Transaction) :
    ∃ s, Reaches (guarded FindsRoom step) (initialState initial txs) s ∧
      (Rested s ∧ s.ledger = initial) ∧
      ∀ t, (s.threads t).code = .loop ∧ (s.threads t).ops = (txs t).ops := by
  refine exists_reaches_each (fun s => Rested s ∧ s.ledger = initial) State.threads
    (fun t th => th = startThread (txs t)) (fun t th => th.code = .loop ∧ th.ops = (txs t).ops) ?_
    ⟨initialState_rested initial txs, rfl⟩ fun _ => rfl
  rintro s t ⟨hrested, hledger⟩ hstart
  obtain ⟨s', hmoves, halone, hfinal⟩ := (hrested t).arrives
  have hend : (s.threads t).code.alone (s.threads t).status (s.threads t).temp s.ledger =
      (.loop, .running, s.ledger) := by
    rw [hstart]
    rfl
  rw [hend] at hfinal
  simp only [Prod.mk.injEq] at hfinal
  refine ⟨s', hmoves.free, ⟨halone.swap, hfinal.2.2.trans hledger⟩, ⟨hfinal.1, ?_⟩,
    hmoves.others⟩
  rw [hmoves.ops, hstart]
  rfl

theorem Rested.commitAll (h : Rested s)
    (hdone : ∀ t, (s.threads t).code = .loop ∧ (s.threads t).ops = []) :
    ∃ s', Reaches step s s' ∧ (Rested s' ∧ s'.ledger = s.ledger) ∧
      ∀ t, (s'.threads t).code = .halt ∧ (s'.threads t).status = .committed := by
  refine exists_reaches_each (fun s' => Rested s' ∧ s'.ledger = s.ledger) State.threads
    (fun _ th => th.code = .loop ∧ th.ops = [])
    (fun _ th => th.code = .halt ∧ th.status = .committed) ?_ ⟨h, rfl⟩ hdone
  rintro s₁ t ⟨hrested, hledger⟩ ⟨hcode, hops⟩
  obtain ⟨s', hreach, hrested', hothers, _, hend, hsame⟩ := hrested.commit hcode hops
  exact ⟨s', hreach.of_guarded, ⟨hrested', hsame.trans hledger⟩, hend, hothers⟩

theorem Rested.order (order : List (Fin n × Operation)) (h : Rested s)
    (hcode : ∀ t, (s.threads t).code = .loop)
    (hown : ∀ t, (order.filter fun e => e.1 = t).map Prod.snd = (s.threads t).ops)
    (hok : ∀ o ∈ (s.ledger.runAll (order.map Prod.snd)).2, o ≠ .refused) :
    ∃ s', Reaches step s s' ∧ Rested s' ∧
      (∀ t, (s'.threads t).code = .loop ∧ (s'.threads t).ops = []) ∧
      s'.ledger = (s.ledger.runAll (order.map Prod.snd)).1 := by
  refine (exists_reaches_order
    (fun rest s' => Rested s' ∧ (s'.ledger.runAll (rest.map Prod.snd)).1 =
        (s.ledger.runAll (order.map Prod.snd)).1 ∧
      ∀ o ∈ (s'.ledger.runAll (rest.map Prod.snd)).2, o ≠ .refused)
    State.threads (fun _ rest th => th.code = .loop ∧ th.ops = rest) ?_ ⟨h, rfl, hok⟩
    fun t => ⟨hcode t, (hown t).symm⟩).imp
    fun s' ⟨hreach, ⟨hrested, hledger, _⟩, hdone⟩ => ⟨hreach, hrested, hdone, hledger⟩
  rintro t op rest s₁ ⟨hrested, hledger, hok⟩ ⟨hcode, hops⟩
  have hop : (s₁.ledger.run op).2 ≠ .refused := hok _ List.mem_cons_self
  obtain ⟨s₂, hreach, hrested₂, hothers, hcode₂, hops₂, hledger₂⟩ :=
    hrested.operation hcode hops hop
  refine ⟨s₂, hreach, ⟨hrested₂, ?_, fun o ho => ?_⟩, ⟨hcode₂, hops₂⟩, hothers⟩
  · rw [hledger₂]
    exact hledger
  · rw [hledger₂] at ho
    exact hok o (List.mem_cons_of_mem _ ho)

/-- Every order of operations none of which is refused is that of a run in which all transactions
are committed. -/
theorem exists_run_of_order {order : List (Fin n × Operation)}
    (hown : ∀ t, (order.filter fun e => e.1 = t).map Prod.snd = (txs t).ops)
    (hok : ∀ o ∈ (initial.runAll (order.map Prod.snd)).2, o ≠ .refused) :
    ∃ s, Reaches step (initialState initial txs) s ∧
      (∀ t, s.Finished t ∧ (s.threads t).status = .committed) ∧
      s.ledger = (initial.runAll (order.map Prod.snd)).1 := by
  -- first all threads start, then the operations follow the order, then all commit
  obtain ⟨s₁, hreach₁, ⟨hrested₁, rfl⟩, hstart⟩ := exists_all_started initial txs
  obtain ⟨s₂, hreach₂, hrested₂, hdone, hledger₂⟩ := hrested₁.order order
    (fun t => (hstart t).1) (fun t => (hown t).trans (hstart t).2.symm) hok
  obtain ⟨s₃, hreach₃, ⟨_, hledger₃⟩, hend⟩ := hrested₂.commitAll hdone
  exact ⟨s₃, (hreach₁.of_guarded.trans hreach₂).trans hreach₃, hend, hledger₃.trans hledger₂⟩

end Rested

end OsLab.Bank
