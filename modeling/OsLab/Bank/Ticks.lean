import OsLab.Bank.Abort

/-! Tick accounting. `Timed` follows a piece of code through its reads of `global_tick`, whatever
the clock shows at each of them; every operation that succeeds waits for one more tick after those
that it is charged with. -/

namespace OsLab.Bank

open Interleaving State Code

variable {n : Nat}

/-- The variables of a transaction that depend on the clock, and how many of its operations have
succeeded. -/
structure Ticks where
  tickBefore : Int
  currentTick : Int
  actualStart : Int
  actualEnd : Int
  waitTicks : Int
  completed : Nat

def Thread.ticks (th : Thread) : Ticks where
  tickBefore := th.tickBefore
  currentTick := th.currentTick
  actualStart := th.actualStart
  actualEnd := th.actualEnd
  waitTicks := th.waitTicks
  completed := (succeeded th.outcomes).length

namespace Ticks

def set (v : Ticks) (tick : Int) : TickVar → Ticks
  | .actualStart => { v with actualStart := tick }
  | .tickBefore => { v with tickBefore := tick }
  | .currentTick => { v with currentTick := tick }
  | .actualEnd => { v with actualEnd := tick }

def target (v : Ticks) : Target → Int
  | .tick value => value
  | .nextTick => v.currentTick + 1

def perform (v : Ticks) : LocalAction → Ticks
  | .addWaitTicks => { v with waitTicks := v.waitTicks + (v.currentTick - v.tickBefore) }
  | .opReturn _ outcome => if outcome = some .refused then v else { v with completed := v.completed + 1 }
  | .setStatus _ => v

/-- The ticks waited for and one for each operation fit between the start and `finish`. -/
structure Accounted (startTick : Int) (v : Ticks) (finish : Int) : Prop where
  start : startTick ≤ v.actualStart
  wait : 0 ≤ v.waitTicks
  finish : v.actualStart + v.waitTicks + v.completed ≤ finish

end Ticks

/-- The code comes back to its loop, or to its end, with the ticks accounted for, if the clock shows
`now` and from then on whatever it wants but no less. -/
def Code.Timed (startTick : Int) : Code → Ticks → Int → Prop
  | loop, v, now => v.Accounted startTick now
  | halt, v, now => v.Accounted startTick v.actualEnd ∧ v.actualEnd ≤ now
  | act (.tick (.read var)) next, v, now => ∀ tick, now ≤ tick → next.Timed startTick (v.set tick var) tick
  | act (.thread a) next, v, now => next.Timed startTick (v.perform a) now
  | act _ next, v, now => next.Timed startTick v now
  | await target next, v, now =>
    ∀ tick, now ≤ tick → v.target target ≤ tick → next.Timed startTick v tick
  | check _ _ enough short, v, now => enough.Timed startTick v now ∧ short.Timed startTick v now

namespace Code

variable {startTick now now' : Int} {v : Ticks} {c next onTrue onFalse : Code}

theorem Timed.mono (h : c.Timed startTick v now) (hle : now ≤ now') : c.Timed startTick v now' := by
  induction c generalizing v now now' with
  | loop => exact ⟨h.start, h.wait, h.finish.trans hle⟩
  | halt => exact ⟨h.1, h.2.trans hle⟩
  | act a next ih =>
    rcases a with a | _ | (_ | _ | var) | a | a
    case tick.read => exact fun tick htick => h tick (hle.trans htick)
    all_goals exact ih h hle
  | await target next ih => exact fun tick htick => h tick (hle.trans htick)
  | check x amount enough short ih₁ ih₂ => exact ⟨ih₁ h.1 hle, ih₂ h.2 hle⟩

theorem timed_readTick (var : TickVar)
    (h : ∀ tick, now ≤ tick → next.Timed startTick (v.set tick var) tick) :
    (readTick var next).Timed startTick v now := h

theorem timed_waitUntilTick (target : Target)
    (h : ∀ tick, now ≤ tick → v.target target ≤ tick → next.Timed startTick v tick) :
    (waitUntilTick target next).Timed startTick v now := h

theorem timed_pool (actions : List PoolAction) (h : next.Timed startTick v now) :
    (pool actions next).Timed startTick v now := by
  induction actions with
  | nil => exact h
  | cons a actions ih => exact ih

theorem timed_getBalance (x : AccountId) (h : next.Timed startTick v now) :
    (getBalance x next).Timed startTick v now := h

theorem timed_deposit (x : AccountId) (amount : Int) (h : next.Timed startTick v now) :
    (deposit x amount next).Timed startTick v now := h

theorem timed_withdraw (x : AccountId) (amount : Int) (htrue : onTrue.Timed startTick v now)
    (hfalse : onFalse.Timed startTick v now) :
    (withdraw x amount onTrue onFalse).Timed startTick v now := ⟨htrue, hfalse⟩

theorem timed_transfer (x y : AccountId) (amount : Int) (htrue : onTrue.Timed startTick v now)
    (hfalse : onFalse.Timed startTick v now) :
    (transfer x y amount onTrue onFalse).Timed startTick v now := by
  unfold transfer
  split_ifs
  · exact htrue
  · exact ⟨htrue, hfalse⟩
  · exact ⟨htrue, hfalse⟩

theorem timed_abortTransaction (h : v.Accounted startTick now) :
    abortTransaction.Timed startTick v now :=
  timed_readTick .actualEnd fun _ htick => ⟨⟨h.start, h.wait, h.finish.trans htick⟩, le_rfl⟩

theorem timed_commitTransaction (h : v.Accounted startTick now) :
    commitTransaction.Timed startTick v now :=
  timed_readTick .actualEnd fun _ htick => ⟨⟨h.start, h.wait, h.finish.trans htick⟩, le_rfl⟩

theorem timed_executeTransaction (hwait : v.waitTicks = 0) (hcompleted : v.completed = 0) :
    (executeTransaction startTick).Timed startTick v now := by
  refine timed_waitUntilTick _ fun tick _ htarget => timed_readTick .actualStart fun tick' hle => ?_
  refine ⟨htarget.trans hle, hwait.ge, ?_⟩
  show tick' + v.waitTicks + v.completed ≤ tick'
  rw [hwait, hcompleted]
  simp

theorem timed_finishOperation {unload : Code → Code}
    (hunload : ∀ v now, v.Accounted startTick now → (unload loop).Timed startTick v now)
    (h : v.Accounted startTick v.tickBefore) (op : Operation) {outcome : Option Outcome}
    (houtcome : outcome ≠ some .refused) :
    (thread (.opReturn op outcome) (finishOperation unload)).Timed startTick v v.tickBefore := by
  have hcounted : v.perform (.opReturn op outcome) = { v with completed := v.completed + 1 } :=
    if_neg houtcome
  show (finishOperation unload).Timed startTick (v.perform (.opReturn op outcome)) v.tickBefore
  rw [hcounted]
  refine timed_readTick .currentTick fun tick htick => ?_
  refine timed_waitUntilTick .nextTick fun tick' _ hnext => hunload _ _ ?_
  have hnext : tick + 1 ≤ tick' := hnext
  have hfinish := h.finish
  have hwait := h.wait
  refine ⟨h.start, ?_, ?_⟩
  · show 0 ≤ v.waitTicks + (tick - v.tickBefore)
    omega
  · show v.actualStart + (v.waitTicks + (tick - v.tickBefore)) + (v.completed + 1 : Nat) ≤ tick'
    push_cast
    omega

theorem timed_executeOperation (op : Operation) (h : v.Accounted startTick now) :
    (executeOperation op).Timed startTick v now := by
  refine timed_readTick .tickBefore fun tick htick => ?_
  have hthen : ∀ (outcome : Option Outcome) (unload : Code → Code),
      outcome ≠ some .refused →
      (∀ v now, v.Accounted startTick now → (unload loop).Timed startTick v now) →
      (thread (.opReturn op outcome) (finishOperation unload)).Timed startTick
        (v.set tick .tickBefore) tick := fun outcome unload houtcome hunload =>
    timed_finishOperation (v := v.set tick .tickBefore) hunload
      ⟨h.start, h.wait, h.finish.trans htick⟩ op houtcome
  have hrefused : ∀ unload : Code → Code,
      (∀ v now, v.Accounted startTick now → (unload abortTransaction).Timed startTick v now) →
      (thread (.opReturn op (some .refused)) (unload abortTransaction)).Timed startTick
        (v.set tick .tickBefore) tick := fun unload hunload =>
    hunload _ _ ⟨h.start, h.wait, h.finish.trans htick⟩
  have hunload : ∀ (x : AccountId) (v : Ticks) (now : Int), v.Accounted startTick now →
      (unloadAccount x loop).Timed startTick v now := fun x v now hv => timed_pool _ hv
  cases op.type with
  | deposit =>
    exact timed_pool _ (timed_deposit _ _ (hthen _ _ (by simp) (hunload op.accountId)))
  | withdraw =>
    exact timed_pool _ (timed_withdraw _ _ (hthen _ _ (by simp) (hunload op.accountId))
      (hrefused _ fun v now hv => timed_pool _ (timed_abortTransaction hv)))
  | transfer =>
    exact timed_pool _ (timed_pool _ (timed_transfer _ _ _
      (hthen _ _ (by simp) fun v now hv => timed_pool _ (timed_pool _ hv))
      (hrefused (fun next => unloadAccount op.first <| unloadAccount op.second next)
        fun v now hv => timed_pool _ (timed_pool _ (timed_abortTransaction hv)))))
  | balance =>
    exact timed_pool _ (timed_getBalance _ (hthen _ _ (by simp) (hunload op.accountId)))

end Code

theorem ticks_perform (th : Thread) (a : LocalAction) : (th.perform a).ticks = th.ticks.perform a := by
  cases a with
  | opReturn op outcome =>
    have hreturned : returned outcome th.balance = .refused ↔ outcome = some .refused := by
      cases outcome <;> simp [returned]
    by_cases hrefused : outcome = some .refused
    · rw [Ticks.perform, if_pos hrefused]
      simp [Thread.perform, Thread.ticks, succeeded, hreturned.mpr hrefused]
    · rw [Ticks.perform, if_neg hrefused]
      simp [Thread.perform, Thread.ticks, succeeded, mt hreturned.mp hrefused]
  | _ => rfl

def State.Timed (s : State n) (t : Fin n) (startTick : Int) : Prop :=
  (s.threads t).code.Timed startTick (s.threads t).ticks s.clock.globalTick

theorem timed_act {startTick : Int} {th : Thread} {s : State n} {a : Action} {next : Code}
    (h : (act a next).Timed startTick th.ticks s.clock.globalTick) :
    next.Timed startTick (th.after s a).ticks s.clock.globalTick := by
  cases a with
  | tick a =>
    cases a with
    | read var =>
      have hread := h s.clock.globalTick le_rfl
      cases var <;> exact hread
    | _ => exact h
  | ledger a => cases a <;> exact h
  | thread a =>
    show next.Timed startTick (th.perform a).ticks s.clock.globalTick
    rw [ticks_perform]
    exact h
  | _ => exact h

theorem moves_timed {s s' : State n} {t : Fin n} {startTick : Int} (h : s.Timed t startTick)
    (hm : s.Moves t s') : s'.Timed t startTick := by
  unfold State.Timed at h ⊢
  cases hm with
  | commit hcode hops =>
    rw [setThread_self]
    rw [hcode] at h
    exact timed_commitTransaction h
  | begin op ops hcode hops =>
    rw [setThread_self]
    rw [hcode] at h
    exact timed_executeOperation op h
  | act a next s₁ th hcode hp =>
    rw [hcode] at h
    rw [setThread_self, setThread_clock, (perform_clock hp).2.2, (perform_eq_some hp).2.2]
    exact timed_act h
  | wait target next hcode hlt =>
    rw [setThread_self]
    rw [hcode] at h
    exact h
  | proceed target next hcode hle =>
    rw [setThread_self]
    rw [hcode] at h
    exact h _ le_rfl (by cases target <;> exact hle)
  | short x amount enough short hcode hlt =>
    rw [setThread_self]
    rw [hcode] at h
    exact h.2
  | enough x amount enough short hcode hle =>
    rw [setThread_self]
    rw [hcode] at h
    exact h.1

theorem step_globalTick_le {s s' : State n} {party : Party n} (hs : s.step party = some s') :
    s.clock.globalTick ≤ s'.clock.globalTick := by
  cases party with
  | timer =>
    obtain ⟨clock', hp, rfl⟩ := Option.map_eq_some_iff.mp hs
    unfold Clock.timerStep at hp
    split at hp
    · split_ifs at hp
      rw [← Option.some.inj hp]
    · rw [← Option.some.inj hp]
      exact (lt_add_one _).le
    · rw [← Option.some.inj hp]
  | thread t =>
    cases threadStep_moves hs with
    | act a next s₁ th hcode hp => exact (perform_clock hp).2.2.ge
    | _ => exact le_rfl

section Runs

variable {initial : Ledger} {txs : Fin n → Transaction} {s : State n}

theorem reaches_timed (h : Reaches step (initialState initial txs) s) (t : Fin n) :
    s.Timed t (txs t).startTick := by
  refine h.invariant (fun s => ∀ t, s.Timed t (txs t).startTick) (fun a party b hb ha u => ?_)
    (fun u => timed_executeTransaction rfl rfl) t
  rcases step_thread hb u with hsame | hm
  · have hmono := (ha u).mono (step_globalTick_le hb)
    rw [← hsame] at hmono
    exact hmono
  · exact moves_timed (ha u) hm

/-- When a transaction has ended, its ticks are accounted for: it has not started early, and the
ticks it has waited and one for each operation that it completed fit between its start and its
end. -/
theorem finished_ticks (h : Reaches step (initialState initial txs) s) {t : Fin n}
    (hend : s.Finished t) :
    (txs t).startTick ≤ (s.threads t).actualStart ∧ 0 ≤ (s.threads t).waitTicks ∧
      (s.threads t).actualStart + (s.threads t).waitTicks +
          (succeeded (s.threads t).outcomes).length ≤ (s.threads t).actualEnd ∧
      ((s.threads t).status = .committed → succeeded (s.threads t).outcomes = (txs t).ops) ∧
      ((s.threads t).status = .aborted →
        ∃ op rest, (txs t).ops = succeeded (s.threads t).outcomes ++ op :: rest ∧
          (s.threads t).outcomes.map Prod.fst = succeeded (s.threads t).outcomes ++ [op]) := by
  have htimed := reaches_timed h t
  unfold State.Timed at htimed
  rw [hend] at htimed
  obtain ⟨hstart, hwait, hfinish⟩ := htimed.1
  exact ⟨hstart, hwait, hfinish, (reaches_ended h hend).succeeded⟩

end Runs

/-- The deposit counts, the withdrawal that is refused does not. -/
theorem finished_ticks_aborted :
    ∃ s : State 1, (s.threads 0).status = .aborted ∧
      (abortedTxs 0).startTick ≤ (s.threads 0).actualStart ∧ 0 ≤ (s.threads 0).waitTicks ∧
      (s.threads 0).actualStart + (s.threads 0).waitTicks +
        (succeeded (s.threads 0).outcomes).length ≤ (s.threads 0).actualEnd := by
  obtain ⟨s, hs, hend, hstatus, _⟩ := abortedSchedule_finished
  have h := finished_ticks (reaches_of_runSchedule hs) (hend 0)
  exact ⟨s, hstatus, h.1, h.2.1, h.2.2.1⟩

end OsLab.Bank
