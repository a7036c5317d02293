import OsLab.Bank.Holding

/-! What one step of the machine can do, and the ownership of the shared state along whole runs. -/

namespace OsLab.Bank

open Interleaving

variable {n : Nat}

def Thread.after (th : Thread) (s : State n) : Action → Thread
  | .tick action => th.tick s.clock.globalTick action
  | .ledger action => th.ledger s.ledger action
  | .thread action => th.perform action
  | _ => th

theorem Thread.after_ops (th : Thread) (s : State n) (a : Action) :
    (th.after s a).ops = th.ops := by
  cases a with
  | tick a => rcases a with _ | _ | (_ | _ | _ | _) <;> rfl
  | ledger a => cases a <;> rfl
  | thread a => cases a <;> rfl
  | _ => rfl

/-- What an action makes of the ledger, where `temp` is what its thread has fetched. -/
def Action.ledgerAfter (temp : Int) (l : Ledger) : Action → Ledger
  | ledger action => action.perform temp l
  | _ => l

namespace State

theorem perform_eq_some {s s' : State n} {t : Fin n} {a : Action} {th : Thread}
    (h : s.perform t a = some (s', th)) :
    s'.threads = s.threads ∧ s'.ledger = a.ledgerAfter (s.threads t).temp s.ledger ∧
      th = (s.threads t).after s a := by
  cases a with
  | pool a =>
    obtain ⟨_, _, heq⟩ := Option.map_eq_some_iff.mp h
    obtain ⟨rfl, rfl⟩ := Prod.mk.inj heq
    exact ⟨rfl, rfl, rfl⟩
  | rwlock x a =>
    obtain ⟨_, _, heq⟩ := Option.map_eq_some_iff.mp h
    obtain ⟨rfl, rfl⟩ := Prod.mk.inj heq
    exact ⟨rfl, rfl, rfl⟩
  | tick a =>
    obtain ⟨_, _, heq⟩ := Option.map_eq_some_iff.mp h
    obtain ⟨rfl, rfl⟩ := Prod.mk.inj heq
    exact ⟨rfl, rfl, rfl⟩
  | ledger a =>
    obtain ⟨rfl, rfl⟩ := Prod.mk.inj (Option.some.inj h)
    exact ⟨rfl, rfl, rfl⟩
  | thread a =>
    obtain ⟨rfl, rfl⟩ := Prod.mk.inj (Option.some.inj h)
    exact ⟨rfl, rfl, rfl⟩

theorem perform_frame {s s' : State n} {t : Fin n} {a : Action} {th : Thread}
    (h : s.perform t a = some (s', th)) :
    ((∀ b, a ≠ .pool b) → s'.pool = s.pool) ∧ ((∀ x b, a ≠ .rwlock x b) → s'.locks = s.locks) ∧
      ((∀ b, a ≠ .tick b) → s'.clock = s.clock) := by
  cases a with
  | pool a =>
    obtain ⟨_, _, heq⟩ := Option.map_eq_some_iff.mp h
    obtain ⟨rfl, rfl⟩ := Prod.mk.inj heq
    exact ⟨fun hne => absurd rfl (hne a), fun _ => rfl, fun _ => rfl⟩
  | rwlock x a =>
    obtain ⟨_, _, heq⟩ := Option.map_eq_some_iff.mp h
    obtain ⟨rfl, rfl⟩ := Prod.mk.inj heq
    exact ⟨fun _ => rfl, fun hne => absurd rfl (hne x a), fun _ => rfl⟩
  | tick a =>
    obtain ⟨_, _, heq⟩ := Option.map_eq_some_iff.mp h
    obtain ⟨rfl, rfl⟩ := Prod.mk.inj heq
    exact ⟨fun _ => rfl, fun _ => rfl, fun hne => absurd rfl (hne a)⟩
  | ledger a =>
    obtain ⟨rfl, rfl⟩ := Prod.mk.inj (Option.some.inj h)
    exact ⟨fun _ => rfl, fun _ => rfl, fun _ => rfl⟩
  | thread a =>
    obtain ⟨rfl, rfl⟩ := Prod.mk.inj (Option.some.inj h)
    exact ⟨fun _ => rfl, fun _ => rfl, fun _ => rfl⟩

/-- The steps of the thread `t`, by what it has to do next. -/
inductive Moves (s : State n) (t : Fin n) : State n → Prop
  | commit (hcode : (s.threads t).code = .loop) (hops : (s.threads t).ops = []) :
    Moves s t (s.setThread t { s.threads t with code := commitTransaction })
  | begin (op : Operation) (ops : List Operation) (hcode : (s.threads t).code = .loop)
    (hops : (s.threads t).ops = op :: ops) :
    Moves s t (s.setThread t { s.threads t with code := executeOperation op, ops := ops })
  | act (action : Action) (next : Code) (s' : State n) (th : Thread)
    (hcode : (s.threads t).code = .act action next) (hp : s.perform t action = some (s', th)) :
    Moves s t (s'.setThread t { th with code := next })
  | wait (target : Target) (next : Code) (hcode : (s.threads t).code = .await target next)
    (hlt : s.clock.globalTick < target.value (s.threads t)) :
    Moves s t ({ s with clock := { s.clock with tickLock := none } }.setThread t
      { s.threads t with code := .act (.tick .lock) (.await target next) })
  | proceed (target : Target) (next : Code) (hcode : (s.threads t).code = .await target next)
    (hle : target.value (s.threads t) ≤ s.clock.globalTick) :
    Moves s t (s.setThread t { s.threads t with code := next })
  | short (account : AccountId) (amount : Int) (enough short : Code)
    (hcode : (s.threads t).code = .check account amount enough short)
    (hlt : s.ledger.1 account < amount) :
    Moves s t (s.setThread t { s.threads t with code := short })
  | enough (account : AccountId) (amount : Int) (enough short : Code)
    (hcode : (s.threads t).code = .check account amount enough short)
    (hle : amount ≤ s.ledger.1 account) :
    Moves s t (s.setThread t { s.threads t with code := enough })

theorem threadStep_moves {s s' : State n} {t : Fin n} (h : s.threadStep t = some s') :
    s.Moves t s' := by
  unfold threadStep at h
  cases hcode : (s.threads t).code with
  | halt => simp [hcode] at h
  | loop =>
    simp only [hcode] at h
    split at h
    · rename_i hops
      exact (Option.some.inj h) ▸ .commit hcode hops
    · rename_i op ops hops
      exact (Option.some.inj h) ▸ .begin op ops hcode hops
  | act action next =>
    simp only [hcode] at h
    obtain ⟨⟨s₁, th⟩, hp, rfl⟩ := Option.map_eq_some_iff.mp h
    exact .act action next s₁ th hcode hp
  | await target next =>
    simp only [hcode] at h
    split_ifs at h with hlt
    · exact (Option.some.inj h) ▸ .wait target next hcode hlt
    · exact (Option.some.inj h) ▸ .proceed target next hcode (not_lt.mp hlt)
  | check account amount enough short =>
    simp only [hcode] at h
    split_ifs at h with hlt
    · exact (Option.some.inj h) ▸ .short account amount enough short hcode hlt
    · exact (Option.some.inj h) ▸ .enough account amount enough short hcode (not_lt.mp hlt)

@[simp] theorem setThread_threads (s : State n) (t : Fin n) (th : Thread) :
    (s.setThread t th).threads = Function.update s.threads t th := rfl

theorem setThread_self (s : State n) (t : Fin n) (th : Thread) : (s.setThread t th).threads t = th :=
  Function.update_self ..

@[simp] theorem setThread_pool (s : State n) (t : Fin n) (th : Thread) :
    (s.setThread t th).pool = s.pool := rfl

@[simp] theorem setThread_locks (s : State n) (t : Fin n) (th : Thread) :
    (s.setThread t th).locks = s.locks := rfl

@[simp] theorem setThread_clock (s : State n) (t : Fin n) (th : Thread) :
    (s.setThread t th).clock = s.clock := rfl

@[simp] theorem setThread_ledger (s : State n) (t : Fin n) (th : Thread) :
    (s.setThread t th).ledger = s.ledger := rfl

theorem Moves.threads_of_ne {s s' : State n} {t u : Fin n} (h : s.Moves t s') (hu : u ≠ t) :
    s'.threads u = s.threads u := by
  cases h with
  | act a next s₁ th hcode hp =>
    rw [setThread_threads, Function.update_of_ne hu, (perform_eq_some hp).1]
  | _ => rw [setThread_threads, Function.update_of_ne hu]

theorem step_thread {s s' : State n} {party : Party n} (hs : s.step party = some s') (t : Fin n) :
    s'.threads t = s.threads t ∨ s.Moves t s' := by
  cases party with
  | timer =>
    obtain ⟨_, _, rfl⟩ := Option.map_eq_some_iff.mp hs
    exact .inl rfl
  | thread u =>
    rcases eq_or_ne t u with rfl | hu
    · exact .inr (threadStep_moves hs)
    · exact .inl ((threadStep_moves hs).threads_of_ne hu)

end State

open State

/-- Every thread's code is safe from what it holds on, and holds what the shared state says. -/
structure Owns (s : State n) (held : Fin n → Held) : Prop where
  safe : ∀ t, Safe (s.threads t).code (held t)
  ordered : ∀ t, (held t).Ordered
  pool : PoolOwned s.pool held
  locks : ∀ x, LockOwned x (s.locks x) held
  clock : ClockOwned s.clock held
  fresh : ∀ t x, (held t).fresh = some x →
    (x, .write) ∈ (held t).locks ∧ (s.threads t).temp = s.ledger.1 x

section Owns

variable {s s' : State n} {held : Fin n → Held} {t : Fin n} {h' : Held} {th : Thread}

theorem Owns.writer_unique (h : Owns s held) {u : Fin n} {x : AccountId}
    (ht : (x, .write) ∈ (held t).locks) (hu : (x, .write) ∈ (held u).locks) : t = u :=
  Option.some.inj ((((h.locks x).writer t).mpr ht).symm.trans (((h.locks x).writer u).mpr hu))

theorem Owns.not_mem_of_writer (h : Owns s held) {u : Fin n} {x : AccountId} {mode : LockMode}
    (ht : (x, mode) ∈ (held t).locks) (hu : (x, .write) ∈ (held u).locks) : t = u := by
  cases mode with
  | write => exact h.writer_unique ht hu
  | read =>
    have hwriter := ((h.locks x).writer u).mpr hu
    have hreader := ((h.locks x).readers t).mpr ht
    rcases (h.locks x).exclusive with hnone | hempty
    · simp [hwriter] at hnone
    · simp [hempty] at hreader

theorem Owns.setThread (h : Owns s held) (hsafe : Safe th.code h') (hordered : h'.Ordered)
    (hpool : PoolOwned s'.pool (Function.update held t h'))
    (hlocks : ∀ x, LockOwned x (s'.locks x) (Function.update held t h'))
    (hclock : ClockOwned s'.clock (Function.update held t h'))
    (hthreads : s'.threads = s.threads)
    (hfresh : ∀ x, h'.fresh = some x → (x, .write) ∈ h'.locks ∧ th.temp = s'.ledger.1 x)
    (hledger : ∀ u x, u ≠ t → (x, .write) ∈ (held u).locks → s'.ledger.1 x = s.ledger.1 x) :
    Owns (s'.setThread t th) (Function.update held t h') where
  safe u := by
    rw [setThread_threads, hthreads]
    rcases eq_or_ne u t with rfl | hu
    · simpa only [Function.update_self] using hsafe
    · simpa only [Function.update_of_ne hu] using h.safe u
  ordered u := by
    rcases eq_or_ne u t with rfl | hu
    · simpa only [Function.update_self] using hordered
    · simpa only [Function.update_of_ne hu] using h.ordered u
  pool := hpool
  locks := hlocks
  clock := hclock
  fresh u x hx := by
    rw [setThread_threads, hthreads]
    rcases eq_or_ne u t with rfl | hu
    · simp only [Function.update_self] at hx ⊢
      exact hfresh x hx
    · simp only [Function.update_of_ne hu] at hx ⊢
      obtain ⟨hmem, htemp⟩ := h.fresh u x hx
      exact ⟨hmem, htemp.trans (hledger u x hu hmem).symm⟩

theorem Owns.goto (h : Owns s held) (hsafe : Safe th.code (held t))
    (htemp : th.temp = (s.threads t).temp) : Owns (s.setThread t th) held := by
  have hself : Function.update held t (held t) = held := Function.update_eq_self t held
  rw [← hself]
  refine h.setThread hsafe (h.ordered t) (hself.symm ▸ h.pool) (fun x => hself.symm ▸ h.locks x)
    (hself.symm ▸ h.clock) rfl (fun x hx => ?_) fun _ _ _ _ => rfl
  exact (h.fresh t x hx).imp_right htemp.trans

theorem Owns.poolAction (h : Owns s held) {a : PoolAction} (ha : a.Allowed (held t))
    {pool' : BufferPool n} (hp : a.perform t s.pool = some pool')
    (hsafe : Safe th.code (a.after (held t))) (htemp : th.temp = (s.threads t).temp) :
    Owns (State.setThread { s with pool := pool' } t th)
      (Function.update held t (a.after (held t))) := by
  have hsame : (a.after (held t)).locks = (held t).locks ∧ (a.after (held t)).tick = (held t).tick ∧
      (a.after (held t)).fresh = (held t).fresh := by
    cases a <;> exact ⟨rfl, rfl, rfl⟩
  obtain ⟨hlocks, htick, hfresh⟩ := hsame
  refine h.setThread hsafe ?_ (h.pool.perform ha hp) (fun x => ?_) (h.clock.congr htick) rfl
    (fun x hx => ?_) fun _ _ _ _ => rfl
  · unfold Held.Ordered
    rw [hlocks]
    exact h.ordered t
  · exact (h.locks x).congr fun mode => by rw [hlocks]
  · rw [hfresh] at hx
    rw [hlocks]
    exact (h.fresh t x hx).imp_right htemp.trans

theorem Owns.lockAction (h : Owns s held) {x : AccountId} {a : LockAction}
    (ha : a.Allowed x (held t)) {lock' : RwLock n} (hp : a.perform t (s.locks x) = some lock')
    (hsafe : Safe th.code (a.after x (held t))) (htemp : th.temp = (s.threads t).temp) :
    Owns (State.setThread { s with locks := Function.update s.locks x lock' } t th)
      (Function.update held t (a.after x (held t))) := by
  have hsame : (a.after x (held t)).pool = (held t).pool ∧
      (a.after x (held t)).tick = (held t).tick ∧
      (a.after x (held t)).permits = (held t).permits := by
    cases a <;> exact ⟨rfl, rfl, rfl⟩
  obtain ⟨hpool, htick, hpermits⟩ := hsame
  refine h.setThread hsafe (LockAction.ordered_after (h.ordered t) ha)
    (h.pool.congr rfl rfl hpermits hpool) (fun y => ?_) (h.clock.congr htick) rfl (fun y hy => ?_)
    fun _ _ _ _ => rfl
  · rcases eq_or_ne y x with rfl | hy
    · simpa only [Function.update_self] using (h.locks y).perform (h.ordered t) ha hp
    · simpa only [Function.update_of_ne hy] using (h.locks y).congr (LockAction.mem_after hy ha)
  · cases a with
    | unlock _ => simp [LockAction.after] at hy
    | rdlock => exact (h.fresh t y hy).imp (List.mem_cons_of_mem _) htemp.trans
    | wrlock => exact (h.fresh t y hy).imp (List.mem_cons_of_mem _) htemp.trans

theorem Owns.tickAction (h : Owns s held) {a : TickAction} (ha : a.Allowed (held t))
    {clock' : Clock n} (hp : a.perform t s.clock = some clock')
    (hsafe : Safe th.code (a.after (held t))) (htemp : th.temp = (s.threads t).temp) :
    Owns (State.setThread { s with clock := clock' } t th)
      (Function.update held t (a.after (held t))) := by
  have hsame : (a.after (held t)).locks = (held t).locks ∧ (a.after (held t)).pool = (held t).pool ∧
      (a.after (held t)).fresh = (held t).fresh ∧
      (a.after (held t)).permits = (held t).permits := by
    cases a <;> exact ⟨rfl, rfl, rfl, rfl⟩
  obtain ⟨hlocks, hpool, hfresh, hpermits⟩ := hsame
  refine h.setThread hsafe ?_ (h.pool.congr rfl rfl hpermits hpool) (fun x => ?_)
    (h.clock.perform ha hp) rfl (fun x hx => ?_) fun _ _ _ _ => rfl
  · unfold Held.Ordered
    rw [hlocks]
    exact h.ordered t
  · exact (h.locks x).congr fun mode => by rw [hlocks]
  · rw [hfresh] at hx
    rw [hlocks]
    exact (h.fresh t x hx).imp_right htemp.trans

theorem Owns.ledgerAction (h : Owns s held) {a : LedgerAction} (ha : a.Allowed (held t))
    (hsafe : Safe th.code (a.after (held t)))
    (htemp : th.temp = ((s.threads t).ledger s.ledger a).temp) :
    Owns (State.setThread { s with ledger := a.perform (s.threads t).temp s.ledger } t th)
      (Function.update held t (a.after (held t))) := by
  have hsame : (a.after (held t)).locks = (held t).locks ∧ (a.after (held t)).pool = (held t).pool ∧
      (a.after (held t)).tick = (held t).tick ∧
      (a.after (held t)).permits = (held t).permits := by
    cases a <;> exact ⟨rfl, rfl, rfl, rfl⟩
  obtain ⟨hlocks, hpool, htick, hpermits⟩ := hsame
  refine h.setThread hsafe ?_ (h.pool.congr rfl rfl hpermits hpool) (fun x => ?_)
    (h.clock.congr htick) rfl (fun x hx => ?_) fun u x hu hmem => ?_
  · unfold Held.Ordered
    rw [hlocks]
    exact h.ordered t
  · exact (h.locks x).congr fun mode => by rw [hlocks]
  · cases a with
    | fetch y =>
      obtain rfl := Option.some.inj hx
      exact ⟨ha, htemp⟩
    | store y amount => simp [LedgerAction.after] at hx
    | read y => exact (h.fresh t x hx).imp_right htemp.trans
    | addReserve amount => exact (h.fresh t x hx).imp_right htemp.trans
  · cases a with
    | store y amount =>
      -- `y` is held for writing by the thread itself, so it is not the other thread's account
      have hne : x ≠ y := fun hxy => hu (h.writer_unique (hxy ▸ hmem) ha.1)
      simp [LedgerAction.perform, hne]
    | fetch y => rfl
    | read y => rfl
    | addReserve amount => rfl

theorem Owns.act (h : Owns s held) {a : Action} {next : Code}
    (hcode : (s.threads t).code = .act a next) (hp : s.perform t a = some (s', th)) :
    Owns (s'.setThread t { th with code := next })
      (Function.update held t (a.after (held t))) := by
  have hsafe := h.safe t
  rw [hcode] at hsafe
  obtain ⟨ha, hnext⟩ := hsafe
  cases a with
  | pool a =>
    obtain ⟨pool', hpart, heq⟩ := Option.map_eq_some_iff.mp hp
    obtain ⟨rfl, rfl⟩ := Prod.mk.inj heq
    exact h.poolAction ha hpart hnext rfl
  | rwlock x a =>
    obtain ⟨lock', hpart, heq⟩ := Option.map_eq_some_iff.mp hp
    obtain ⟨rfl, rfl⟩ := Prod.mk.inj heq
    exact h.lockAction ha hpart hnext rfl
  | tick a =>
    obtain ⟨clock', hpart, heq⟩ := Option.map_eq_some_iff.mp hp
    obtain ⟨rfl, rfl⟩ := Prod.mk.inj heq
    refine h.tickAction ha hpart hnext ?_
    cases a with
    | read var => cases var <;> rfl
    | lock => rfl
    | unlock => rfl
  | ledger a =>
    obtain ⟨rfl, rfl⟩ := Prod.mk.inj (Option.some.inj hp)
    exact h.ledgerAction ha hnext rfl
  | thread a =>
    obtain ⟨rfl, rfl⟩ := Prod.mk.inj (Option.some.inj hp)
    have hself : Function.update held t (held t) = held := Function.update_eq_self t held
    change Owns _ (Function.update held t (held t))
    rw [hself]
    exact h.goto hnext (by cases a <;> rfl)

theorem Owns.wait (h : Owns s held) {target : Target} {next : Code}
    (hcode : (s.threads t).code = .await target next) :
    Owns (State.setThread { s with clock := { s.clock with tickLock := none } } t
      { s.threads t with code := .act (.tick .lock) (.await target next) })
      (Function.update held t { held t with tick := false }) := by
  have hsafe := h.safe t
  rw [hcode] at hsafe
  obtain ⟨⟨htick, hpool, hlocks⟩, hnext⟩ := hsafe
  have hagain : ({ held t with tick := true } : Held) = held t := by rw [← htick]
  exact h.setThread ⟨⟨hpool, rfl, hlocks⟩, ⟨rfl, hpool, hlocks⟩, hagain.symm ▸ hnext⟩
    (h.ordered t) (h.pool.congr rfl rfl rfl rfl) (fun x => (h.locks x).congr fun _ => Iff.rfl)
    (h.clock.release htick rfl) rfl (h.fresh t) fun _ _ _ _ => rfl

theorem Owns.moves (h : Owns s held) (hm : s.Moves t s') : ∃ held', Owns s' held' := by
  have hsafe := h.safe t
  cases hm with
  | commit hcode hops =>
    rw [hcode] at hsafe
    exact ⟨held, h.goto (hsafe.symm ▸ safe_commitTransaction) rfl⟩
  | begin op ops hcode hops =>
    rw [hcode] at hsafe
    exact ⟨held, h.goto (hsafe.symm ▸ safe_executeOperation op) rfl⟩
  | act a next s₁ th hcode hp => exact ⟨_, h.act hcode hp⟩
  | wait target next hcode hlt => exact ⟨_, h.wait hcode⟩
  | proceed target next hcode hle =>
    rw [hcode] at hsafe
    exact ⟨held, h.goto hsafe.2 rfl⟩
  | short x amount enough short hcode hlt =>
    rw [hcode] at hsafe
    exact ⟨held, h.goto hsafe.2.2 rfl⟩
  | enough x amount enough short hcode hle =>
    rw [hcode] at hsafe
    exact ⟨held, h.goto hsafe.2.1 rfl⟩

theorem Owns.timerStep (h : Owns s held) {clock' : Clock n} (hp : s.clock.timerStep = some clock') :
    Owns { s with clock := clock' } held :=
  ⟨h.safe, h.ordered, h.pool, h.locks, h.clock.timerStep hp, h.fresh⟩

theorem Owns.step (h : Owns s held) {party : Party n} (hs : s.step party = some s') :
    ∃ held', Owns s' held' := by
  cases party with
  | timer =>
    obtain ⟨clock', hp, rfl⟩ := Option.map_eq_some_iff.mp hs
    exact ⟨held, h.timerStep hp⟩
  | thread t => exact h.moves (threadStep_moves hs)

theorem initialState_owns (ledger : Ledger) (txs : Fin n → Transaction) :
    Owns (initialState ledger txs) fun _ => .nothing where
  safe t := safe_executeTransaction (txs t).startTick
  ordered _ := List.Pairwise.nil
  pool := ⟨by simp [initialState, initBufferPool, Held.nothing], fun t => by
    simp [initialState, initBufferPool, Held.nothing]⟩
  locks x := ⟨fun t => by simp [initialState, RwLock.free, Held.nothing], fun t => by
    simp [initialState, RwLock.free, Held.nothing], .inl rfl⟩
  clock := ⟨fun t => by simp [initialState, initTimer, Held.nothing], .inl rfl⟩
  fresh _ _ h := by simp [Held.nothing] at h

theorem reaches_owns {ledger : Ledger} {txs : Fin n → Transaction}
    (h : Reaches step (initialState ledger txs) s) : ∃ held, Owns s held :=
  h.invariant (fun s => ∃ held, Owns s held) (fun _ _ _ hb ⟨_, ha⟩ => ha.step hb)
    ⟨_, initialState_owns ledger txs⟩

end Owns

end OsLab.Bank
