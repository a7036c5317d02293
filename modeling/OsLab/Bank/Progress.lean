import OsLab.Bank.Alone

/-! Progress. Whoever holds `pool_lock`, `tick_lock` or the lock of an account can go on sooner or
later, and the timer brings every tick, so only the slots of the buffer pool can keep a run from its
end: it can be completed as long as one of the slots is not the first slot of a transfer that has
not got its second. -/

namespace OsLab.Bank

open Interleaving

variable {n : Nat}

/-- The steps to the end of the code, on the longer way where it branches and without the waits. At
the head of the loop there is the commit to come. -/
def Code.work : Code → Nat
  | loop => 5
  | halt => 0
  | act _ next => next.work + 1
  | await _ next => next.work + 1
  | check _ _ enough short => max enough.work short.work + 1

def Thread.work (th : Thread) : Nat :=
  th.code.work + (th.ops.map fun op => (executeOperation op).work).sum

def State.work (s : State n) : Nat := ∑ t, (s.threads t).work

open State

section Work

variable {s s' : State n} {held : Fin n → Held} {t : Fin n}

theorem Moves.work_lt (h : s.Moves t s')
    (hwait : ∀ target next, (s.threads t).code ≠ .await target next) :
    (s'.threads t).work < (s.threads t).work := by
  unfold Thread.work
  cases h with
  | commit hcode hops =>
    rw [setThread_self, hcode, hops]
    exact Nat.lt_succ_self 4
  | begin op ops hcode hops =>
    rw [setThread_self, hcode, hops, List.map_cons, List.sum_cons]
    simp only [Code.work]
    omega
  | act a next s₁ th hcode hp =>
    obtain ⟨-, -, rfl⟩ := perform_eq_some hp
    rw [setThread_self, hcode]
    simp only [Code.work, Thread.after_ops]
    omega
  | wait target next hcode hlt => exact absurd hcode (hwait target next)
  | proceed target next hcode hle => exact absurd hcode (hwait target next)
  | short x amount enough short hcode hlt =>
    rw [setThread_self, hcode]
    simp only [Code.work]
    omega
  | enough x amount enough short hcode hle =>
    rw [setThread_self, hcode]
    simp only [Code.work]
    omega

theorem work_lt (hthreads : ∀ u, u ≠ t → s'.threads u = s.threads u)
    (hlt : (s'.threads t).work < (s.threads t).work) : s'.work < s.work := by
  refine Finset.sum_lt_sum (fun u _ => ?_) ⟨t, Finset.mem_univ t, hlt⟩
  rcases eq_or_ne u t with rfl | hu
  · exact hlt.le
  · rw [hthreads u hu]

end Work

/-- While the timer holds `tick_lock`, it is not asleep. -/
def State.TimerAwake (s : State n) : Prop :=
  s.clock.tickLock = some .timer → s.clock.timer ≠ .sleeping

section Clock

variable {s s' : State n} {held : Fin n → Held} {t : Fin n}

theorem State.TimerAwake.step (h : s.TimerAwake) {party : Party n} (hs : s.step party = some s') :
    s'.TimerAwake := by
  cases party with
  | timer =>
    obtain ⟨clock', hp, rfl⟩ := Option.map_eq_some_iff.mp hs
    unfold Clock.timerStep at hp
    split at hp
    · split_ifs at hp
      cases hp
      exact fun _ => nofun
    · cases hp
      exact fun _ => nofun
    · cases hp
      exact nofun
  | thread t =>
    cases threadStep_moves hs with
    | act a next s₁ th hcode hp =>
      obtain ⟨htimer, hlock, -⟩ := perform_clock hp
      exact fun heq => htimer ▸ h (hlock heq)
    | wait target next hcode hlt => exact nofun
    | _ => exact h

theorem reaches_tick (hlock : s.clock.tickLock = none) (hsleep : s.clock.timer = .sleeping) :
    Reaches step s { s with clock := ⟨s.clock.globalTick + 1, none, .sleeping⟩ } := by
  have hfirst : s.step .timer =
      some { s with clock := ⟨s.clock.globalTick, some .timer, .locked⟩ } := by
    simp [step, Clock.timerStep, hlock, hsleep]
  exact .head ⟨.timer, hfirst⟩ (.head ⟨.timer, rfl⟩ (.single ⟨.timer, rfl⟩))

theorem reaches_ticks (hlock : s.clock.tickLock = none) (hsleep : s.clock.timer = .sleeping)
    (k : Nat) : Reaches step s { s with clock := ⟨s.clock.globalTick + k, none, .sleeping⟩ } := by
  induction k with
  | zero =>
    rw [Nat.cast_zero, add_zero, ← hlock, ← hsleep]
    exact .refl
  | succ k ih =>
    rw [Nat.cast_succ, ← add_assoc]
    exact ih.trans (reaches_tick (s := { s with clock := _ }) rfl rfl)

theorem Owns.exists_unlocked (h : Owns s held) (hawake : s.TimerAwake)
    (hnone : ∀ t, (held t).tick = false) :
    ∃ s', Reaches State.step s s' ∧ s'.threads = s.threads ∧ s'.clock.tickLock = none := by
  cases hlock : s.clock.tickLock with
  | none => exact ⟨s, .refl, rfl, hlock⟩
  | some party =>
    cases party with
    | thread t =>
      have htick : (held t).tick = true := (h.clock.lock t).mp hlock
      exact absurd (htick.symm.trans (hnone t)) nofun
    | timer =>
      have hlast : ∀ s₁ : State n, s₁.clock.timer = .ticked →
          s₁.step .timer = some { s₁ with clock := ⟨s₁.clock.globalTick, none, .sleeping⟩ } := by
        intro s₁ htimer
        simp [State.step, Clock.timerStep, htimer]
      cases htimer : s.clock.timer with
      | sleeping => exact absurd htimer (hawake hlock)
      | ticked => exact ⟨_, .single ⟨.timer, hlast s htimer⟩, rfl, rfl⟩
      | locked =>
        have hfirst : s.step .timer = some { s with clock :=
            { s.clock with globalTick := s.clock.globalTick + 1, timer := .ticked } } := by
          simp [State.step, Clock.timerStep, htimer]
        exact ⟨_, .head ⟨.timer, hfirst⟩ (.single ⟨.timer, hlast _ rfl⟩), rfl, rfl⟩

theorem Owns.exists_proceed (h : Owns s held) {target : Target} {next : Code}
    (hcode : (s.threads t).code = .await target next) :
    ∃ s', Reaches State.step s s' ∧
      s'.threads = Function.update s.threads t { s.threads t with code := next } := by
  by_cases hlt : s.clock.globalTick < target.value (s.threads t)
  · have hsafe := h.safe t
    rw [hcode] at hsafe
    have hlock : s.clock.tickLock = some (.thread t) := (h.clock.lock t).mpr hsafe.1.1
    have hsleep : s.clock.timer = .sleeping := h.clock.timer.resolve_right (by simp [hlock])
    set th : Thread := { s.threads t with code := .act (.tick .lock) (.await target next) } with hth
    set s₁ : State n := State.setThread { s with clock := { s.clock with tickLock := none } } t th
      with hs₁
    have hwait : s.step (.thread t) = some s₁ := by
      simp [State.step, threadStep, hcode, hlt, hs₁, hth]
    obtain ⟨k, hk⟩ : ∃ k : Nat, target.value (s.threads t) ≤ s.clock.globalTick + k :=
      ⟨(target.value (s.threads t) - s.clock.globalTick).toNat, by omega⟩
    have hticks := reaches_ticks (s := s₁) rfl hsleep k
    set s₂ : State n := { s₁ with clock := ⟨s₁.clock.globalTick + k, none, .sleeping⟩ } with hs₂
    have hcode₂ : s₂.threads t = th := setThread_self ..
    set s₃ : State n := State.setThread
      { s₂ with clock := { s₂.clock with tickLock := some (.thread t) } } t (s.threads t) with hs₃
    have hagain : s₂.step (.thread t) = some s₃ := by
      have hperform : s₂.perform t (.tick .lock) =
          some ({ s₂ with clock := { s₂.clock with tickLock := some (.thread t) } }, th) := by
        rw [State.perform, hcode₂]
        rfl
      rw [State.step, threadStep, hcode₂]
      simp only [hth, hperform, Option.map_some]
      rw [hs₃, ← hcode]
    have hproceed : s₃.step (.thread t) =
        some (s₃.setThread t { s.threads t with code := next }) := by
      have hthread : s₃.threads t = s.threads t := setThread_self ..
      have hpassed : ¬ s₃.clock.globalTick < target.value (s.threads t) := not_lt.mpr hk
      simp [State.step, threadStep, hthread, hcode, hpassed]
    refine ⟨_, .head ⟨.thread t, hwait⟩ (hticks.trans (.head ⟨.thread t, hagain⟩
      (.single ⟨.thread t, hproceed⟩))), ?_⟩
    simp [hs₃, hs₂, hs₁]
  · have hstep : s.step (.thread t) = some (s.setThread t { s.threads t with code := next }) := by
      simp [State.step, threadStep, hcode, hlt]
    exact ⟨_, .single ⟨.thread t, hstep⟩, rfl⟩

end Clock

section Posts

variable {s s' : State n} {t : Fin n}

theorem Moves.posts_le (h : s.Moves t s') : (s'.threads t).code.posts ≤ (s.threads t).code.posts ∨
    ∃ op ops, (s.threads t).ops = op :: ops ∧ (s'.threads t).code = executeOperation op ∧
      (s'.threads t).ops = ops := by
  unfold Code.posts
  cases h with
  | commit hcode hops =>
    rw [setThread_self]
    exact .inl (Nat.zero_le _)
  | begin op ops hcode hops =>
    rw [setThread_self]
    exact .inr ⟨op, ops, hops, rfl, rfl⟩
  | act a next s₁ th hcode hp =>
    rw [setThread_self, hcode]
    exact .inl (Nat.le_add_right _ _)
  | wait target next hcode hlt =>
    rw [setThread_self, hcode]
    exact .inl le_rfl
  | proceed target next hcode hle =>
    rw [setThread_self, hcode]
    exact .inl le_rfl
  | short x amount enough short hcode hlt =>
    rw [setThread_self, hcode]
    exact .inl (le_max_right _ _)
  | enough x amount enough short hcode hle =>
    rw [setThread_self, hcode]
    exact .inl (le_max_left _ _)

theorem Moves.ops_suffix (h : s.Moves t s') : (s'.threads t).ops <:+ (s.threads t).ops := by
  cases h with
  | begin op ops hcode hops =>
    rw [setThread_self, hops]
    exact List.suffix_cons op ops
  | act a next s₁ th hcode hp =>
    obtain ⟨-, -, rfl⟩ := perform_eq_some hp
    rw [setThread_self, Thread.after_ops]
  | _ => rw [setThread_self]

theorem ahead_transfer (a : PoolAction) (fromId toId : AccountId) (amount : Int)
    {onTrue onFalse : Code} {k : Nat} (htrue : onTrue.ahead (.pool a) = k)
    (hfalse : onFalse.ahead (.pool a) = k) :
    (transfer fromId toId amount onTrue onFalse).ahead (.pool a) = k := by
  have hmax : max (onTrue.ahead (.pool a)) (onFalse.ahead (.pool a)) = k := by
    rw [htrue, hfalse, max_self]
  unfold transfer
  split_ifs
  · exact htrue
  · exact hmax
  · exact hmax

theorem posts_executeOperation (op : Operation) : (executeOperation op).posts =
    if op.type = .transfer then 2 else 1 := by
  obtain ⟨type, x, amount, y⟩ := op
  cases type with
  | deposit => rfl
  | withdraw => rfl
  | balance => rfl
  | transfer => exact ahead_transfer .semPost x y amount rfl rfl

theorem reaches_posts {ledger : Ledger} {txs : Fin n → Transaction}
    (h : Reaches step (initialState ledger txs) s) (t : Fin n) :
    (s.threads t).ops <:+ (txs t).ops ∧ (s.threads t).code.posts ≤
      if ∃ op ∈ (txs t).ops, op.type = .transfer then 2 else 1 := by
  refine h.invariant (fun s => (s.threads t).ops <:+ (txs t).ops ∧ (s.threads t).code.posts ≤
    if ∃ op ∈ (txs t).ops, op.type = .transfer then 2 else 1)
    (fun a party b hb ⟨hops, hposts⟩ => ?_) ⟨List.suffix_rfl, Nat.zero_le _⟩
  rcases step_thread hb t with heq | hm
  · rw [heq]
    exact ⟨hops, hposts⟩
  · refine ⟨(Moves.ops_suffix hm).trans hops, ?_⟩
    rcases Moves.posts_le hm with hle | ⟨op, ops, hop, hcode, -⟩
    · exact hle.trans hposts
    · have hmem : op ∈ (txs t).ops := hops.subset (hop ▸ List.mem_cons_self)
      rw [hcode, posts_executeOperation]
      split_ifs with htransfer hany hany
      · exact le_rfl
      · exact absurd ⟨op, hmem, htransfer⟩ hany
      · decide
      · exact le_rfl

end Posts

/-- The thread has come to the `sem_wait` for the first of two slots. -/
def State.AtFirstSlot (s : State n) (t : Fin n) : Prop :=
  s.nextAction t = some (.pool .semWait) ∧ 1 < (s.threads t).code.waits

instance (s : State n) : DecidablePred s.AtFirstSlot := fun _ =>
  inferInstanceAs (Decidable (_ ∧ _))

def State.withoutFirstSlots (s : State n) : State n :=
  { s with threads := fun t =>
      if s.AtFirstSlot t then { s.threads t with code := .halt } else s.threads t }

section Progress

variable {s s' : State n} {held : Fin n → Held} {t : Fin n}

theorem halfLoaded_congr (h : ∀ t, (s'.threads t).code.waits = (s.threads t).code.waits ∧
    (s'.threads t).code.posts = (s.threads t).code.posts) : s'.halfLoaded = s.halfLoaded := by
  refine Finset.filter_congr fun t _ => ?_
  rw [HalfLoaded, HalfLoaded, (h t).1, (h t).2]

theorem withoutFirstSlots_of_not (ht : ¬ s.AtFirstSlot t) :
    s.withoutFirstSlots.threads t = s.threads t := if_neg ht

theorem Owns.withoutFirstSlots (h : Owns s held) (hposts : ∀ t, (s.threads t).code.posts ≤ 2) :
    Owns s.withoutFirstSlots held := by
  have hcode : ∀ t, ¬ s.AtFirstSlot t ∨
      held t = .nothing ∧ (s.withoutFirstSlots.threads t).code = .halt := by
    intro t
    by_cases ht : s.AtFirstSlot t
    · refine .inr ⟨?_, congrArg Thread.code (if_pos ht)⟩
      obtain ⟨⟨hpool, htick, hlocks⟩, -⟩ := h.allowed ht.1
      have hpermits := (h.safe t).permits
      have hfew := hposts t
      have hwaits := ht.2
      have hfresh : (held t).fresh = none := by
        refine Option.eq_none_iff_forall_ne_some.mpr fun x hx => ?_
        exact absurd (h.fresh t x hx).1 (hlocks ▸ List.not_mem_nil)
      have hzero : (held t).permits = 0 := by omega
      rw [show held t = ⟨(held t).permits, (held t).pool, (held t).tick, (held t).locks,
        (held t).fresh⟩ from rfl, hzero, hpool, htick, hlocks, hfresh]
      rfl
    · exact .inl ht
  refine ⟨fun t => ?_, h.ordered, h.pool, h.locks, h.clock, fun t x hx => ?_⟩
  · rcases hcode t with ht | ⟨hnothing, hhalt⟩
    · rw [withoutFirstSlots_of_not ht]
      exact h.safe t
    · rw [hhalt]
      exact hnothing
  · rcases hcode t with ht | ⟨hnothing, -⟩
    · rw [withoutFirstSlots_of_not ht]
      exact h.fresh t x hx
    · rw [hnothing] at hx
      cases hx

theorem Owns.exists_free (h : Owns s held) (hposts : ∀ t, (s.threads t).code.posts ≤ 2)
    (hfew : s.halfLoaded.card < bufferPoolSize) (hunfinished : ∃ t, ¬ s.Finished t) :
    ∃ t, ¬ s.Finished t ∧ ¬ s.Blocked t ∧ s.SlotSafe (.thread t) := by
  have hfree : ∀ {s₁ : State n}, Owns s₁ held → s₁.halfLoaded.card < bufferPoolSize →
      (∃ t, ¬ s₁.Finished t) → ∃ t, ¬ s₁.Finished t ∧ ¬ s₁.Blocked t := by
    intro s₁ h₁ hfew₁ hunfinished₁
    by_contra hall
    push Not at hall
    exact absurd (h₁.deadlocked_card ⟨hunfinished₁, hall⟩) (not_le.mpr hfew₁)
  by_cases hroom : s.halfLoaded.card < bufferPoolSize - 1
  · obtain ⟨t, ht, hblocked⟩ := hfree h hfew hunfinished
    exact ⟨t, ht, hblocked, fun _ _ => hroom⟩
  · -- then somebody is half-loaded, and those that are to take a first slot can be left out
    have hmany : bufferPoolSize - 1 ≤ s.halfLoaded.card := Nat.le_of_not_lt hroom
    obtain ⟨u, hu⟩ : s.halfLoaded.Nonempty := Finset.card_pos.mp ((Nat.succ_pos 3).trans_le hmany)
    have hhalf := mem_halfLoaded.mp hu
    have hnot : ¬ s.AtFirstSlot u := fun hfirst => by
      have hle := hposts u
      have hwaits := hfirst.2
      have hlt := hhalf.2
      omega
    have hunfinished₁ : ¬ s.withoutFirstSlots.Finished u := fun hf => by
      rw [Finished, withoutFirstSlots_of_not hnot] at hf
      have hpos := hhalf.1
      rw [hf] at hpos
      exact lt_irrefl 0 hpos
    have hsub : s.withoutFirstSlots.halfLoaded ⊆ s.halfLoaded := fun v hv => by
      have hv := mem_halfLoaded.mp hv
      by_cases hfirst : s.AtFirstSlot v
      · have hhalt : (s.withoutFirstSlots.threads v).code = .halt :=
          congrArg Thread.code (if_pos hfirst)
        rw [HalfLoaded, hhalt] at hv
        exact absurd hv.1 (lt_irrefl 0)
      · rw [HalfLoaded, withoutFirstSlots_of_not hfirst] at hv
        exact mem_halfLoaded.mpr hv
    obtain ⟨t, ht, hblocked⟩ := hfree (h.withoutFirstSlots hposts)
      ((Finset.card_le_card hsub).trans_lt hfew) ⟨u, hunfinished₁⟩
    have hfirst : ¬ s.AtFirstSlot t := fun hfirst => ht (congrArg Thread.code (if_pos hfirst))
    have hnext : ∀ v a, a ≠ .pool .semWait → s.nextAction v = some a →
        s.withoutFirstSlots.nextAction v = some a := by
      intro v a ha hv
      have hv' : ¬ s.AtFirstSlot v := fun hv' => ha (Option.some.inj (hv.symm.trans hv'.1))
      rw [nextAction, withoutFirstSlots_of_not hv']
      exact hv
    refine ⟨t, fun hf => ht ?_, fun hb => hblocked ?_, fun hwait hwaits =>
      absurd ⟨hwait, hwaits⟩ hfirst⟩
    · rw [Finished, withoutFirstSlots_of_not hfirst]
      exact hf
    · obtain ⟨a, ha, hb⟩ := hb
      refine ⟨a, ?_, ?_⟩
      · rw [nextAction, withoutFirstSlots_of_not hfirst]
        exact ha
      · cases a with
        | rwlock x a =>
          cases a with
          | rdlock =>
            refine hb.imp_right (Exists.imp fun v hv => hnext v _ (fun he => ?_) hv)
            cases he
          | wrlock => exact hb
          | unlock mode => exact hb
        | pool a => cases a <;> exact hb
        | _ => exact hb

theorem Owns.not_blocked_of_tick (h : Owns s held) (htick : (held t).tick = true) :
    ¬ s.Finished t ∧ ¬ s.Blocked t := by
  constructor
  · exact h.not_finished fun hnothing => by simp [hnothing, Held.nothing] at htick
  · rintro ⟨a, hnext, hblocked⟩
    have ha := h.allowed hnext
    cases a with
    | pool a =>
      cases a with
      | semWait => simp [ha.1.2.1] at htick
      | lock => simp [ha.2.1] at htick
      | _ => exact hblocked
    | rwlock x a =>
      cases a with
      | rdlock => simp [ha.2.1] at htick
      | wrlock => simp [ha.2.1] at htick
      | unlock mode => exact hblocked
    | _ => exact hblocked

theorem Owns.advance (h : Owns s held) (hs : s.threadStep t = some s')
    (hwait : ∀ target next, (s.threads t).code ≠ .await target next)
    (hok : s.SlotSafe (.thread t)) (hfew : s.halfLoaded.card < bufferPoolSize) :
    s'.halfLoaded.card < bufferPoolSize ∧ s'.work < s.work :=
  ⟨h.card_halfLoaded hok hs hfew, work_lt (fun _ hu => (threadStep_moves hs).threads_of_ne hu)
    (Moves.work_lt (threadStep_moves hs) hwait)⟩

theorem Owns.progress (h : Owns s held) (hawake : s.TimerAwake)
    (hposts : ∀ t, (s.threads t).code.posts ≤ 2) (hfew : s.halfLoaded.card < bufferPoolSize)
    (hunfinished : ∃ t, ¬ s.Finished t) : ∃ s', Reaches State.step s s' ∧
      s'.halfLoaded.card < bufferPoolSize ∧ s'.work < s.work := by
  by_cases htick : ∃ t, (held t).tick = true
  · obtain ⟨t, htick⟩ := htick
    obtain ⟨hnot, hblocked⟩ := h.not_blocked_of_tick htick
    by_cases hwait : ∃ target next, (s.threads t).code = .await target next
    · obtain ⟨target, next, hcode⟩ := hwait
      obtain ⟨s', hreach, hthreads⟩ := h.exists_proceed hcode
      have hself : s'.threads t = { s.threads t with code := next } := by
        rw [hthreads, Function.update_self]
      have hothers : ∀ u, u ≠ t → s'.threads u = s.threads u := fun u hu => by
        rw [hthreads, Function.update_of_ne hu]
      have hhalf : s'.halfLoaded = s.halfLoaded := by
        refine halfLoaded_congr fun u => ?_
        rcases eq_or_ne u t with rfl | hu
        · rw [hself, hcode]
          exact ⟨rfl, rfl⟩
        · rw [hothers u hu]
          exact ⟨rfl, rfl⟩
      refine ⟨s', hreach, hhalf ▸ hfew, work_lt hothers ?_⟩
      rw [hself, Thread.work, Thread.work, hcode]
      exact Nat.add_lt_add_right (Nat.lt_succ_self _) _
    · push Not at hwait
      have hnext : ∀ a, a.Allowed (held t) → s.nextAction t = some a →
          a ≠ .pool .semWait ∧ a ≠ .tick .lock := by
        refine fun a ha _ => ⟨?_, ?_⟩
        · rintro rfl
          exact absurd (ha.1.2.1.symm.trans htick) nofun
        · rintro rfl
          exact absurd (ha.2.1.symm.trans htick) nofun
      have hsome := (threadStep_isSome hnot hblocked).resolve_right fun hlock =>
        (hnext _ (h.allowed hlock) hlock).2 rfl
      obtain ⟨s', hs⟩ := Option.isSome_iff_exists.mp hsome
      exact ⟨s', .single ⟨.thread t, hs⟩, h.advance hs hwait
        (fun hsem => absurd rfl (hnext _ (h.allowed hsem) hsem).1) hfew⟩
  · push Not at htick
    obtain ⟨s₁, hreach₁, hthreads₁, hlock₁⟩ :=
      h.exists_unlocked hawake fun t => Bool.eq_false_iff.mpr (htick t)
    obtain ⟨held₁, h₁⟩ := hreach₁.invariant (fun s => ∃ held, Owns s held)
      (fun _ _ _ hb ⟨_, ha⟩ => ha.step hb) ⟨held, h⟩
    have hhalf₁ : s₁.halfLoaded = s.halfLoaded := 
      halfLoaded_congr fun u => hthreads₁ ▸ ⟨rfl, rfl⟩
    have hfew₁ : s₁.halfLoaded.card < bufferPoolSize := hhalf₁ ▸ hfew
    have hunfinished₁ : ∃ t, ¬ s₁.Finished t := by
      unfold Finished
      rwa [hthreads₁]
    obtain ⟨t, hnot, hblocked, hok⟩ := h₁.exists_free (hthreads₁ ▸ hposts) hfew₁ hunfinished₁
    have hwait : ∀ target next, (s₁.threads t).code ≠ .await target next := by
      intro target next hcode
      have hsafe := h₁.safe t
      rw [hcode] at hsafe
      exact absurd (hlock₁.symm.trans ((h₁.clock.lock t).mpr hsafe.1.1)) nofun
    have hsome : (s₁.threadStep t).isSome := by
      rcases threadStep_isSome hnot hblocked with hsome | hlock
      · exact hsome
      · obtain ⟨next, hcode⟩ := nextAction_eq_some.mp hlock
        simp [threadStep, hcode, perform, TickAction.perform, hlock₁]
    obtain ⟨s', hs⟩ := Option.isSome_iff_exists.mp hsome
    obtain ⟨hhalf, hwork⟩ := h₁.advance hs hwait hok hfew₁
    have hwork₁ : s₁.work = s.work := by
      unfold State.work
      rw [hthreads₁]
    exact ⟨s', hreach₁.trans (.single ⟨.thread t, hs⟩), hhalf, hwork₁ ▸ hwork⟩

theorem reaches_awake {ledger : Ledger} {txs : Fin n → Transaction}
    (h : Reaches step (initialState ledger txs) s) :
    (∃ held, Owns s held) ∧ s.TimerAwake ∧ ∀ t, (s.threads t).code.posts ≤ 2 := by
  refine ⟨?_, ?_, fun t => ?_⟩
  · exact h.invariant (fun s => ∃ held, Owns s held) (fun _ _ _ hb ⟨_, ha⟩ => ha.step hb)
      ⟨_, initialState_owns ledger txs⟩
  · exact h.invariant TimerAwake (fun _ _ _ hb ha => ha.step hb) nofun
  · refine (reaches_posts h t).2.trans ?_
    split_ifs <;> decide

theorem reaches_completes {ledger : Ledger} {txs : Fin n → Transaction}
    (h : Reaches step (initialState ledger txs) s) (hfew : s.halfLoaded.card < bufferPoolSize) :
    ∃ s', Reaches step s s' ∧ ∀ t, s'.Finished t := by
  have hcloser : ∀ s, Reaches step (initialState ledger txs) s ∧
      s.halfLoaded.card < bufferPoolSize → (¬ ∀ t, s.Finished t) →
      ∃ s', Reaches step s s' ∧ (Reaches step (initialState ledger txs) s' ∧
        s'.halfLoaded.card < bufferPoolSize) ∧ s'.work < s.work := by
    rintro s ⟨hs, hfew⟩ hgoal
    obtain ⟨⟨held, howns⟩, hawake, hposts⟩ := reaches_awake hs
    obtain ⟨s', hreach, hfew', hlt⟩ := howns.progress hawake hposts hfew (not_forall.mp hgoal)
    exact ⟨s', hreach, ⟨hs.trans hreach, hfew'⟩, hlt⟩
  obtain ⟨s', hreach, -, hfinished⟩ := exists_reaches_of_decreasing _ _ State.work hcloser ⟨h, hfew⟩
  exact ⟨s', hreach, hfinished⟩

end Progress

def Code.WaitsFirst : Code → Prop
  | loop => True
  | halt => True
  | act a next => (a = .pool .semPost → next.waits = 0) ∧ next.WaitsFirst
  | await _ next => next.WaitsFirst
  | check _ _ enough short =>
    (enough.waits = 0 ∧ short.waits = 0) ∧ enough.WaitsFirst ∧ short.WaitsFirst

section WaitsFirst

variable {s s' : State n} {held : Fin n → Held} {t : Fin n} {next : Code}

theorem waitsFirst_of_waits_eq_zero {c : Code} (h : c.waits = 0) : c.WaitsFirst := by
  unfold Code.waits at h
  induction c with
  | loop => trivial
  | halt => trivial
  | act a next ih =>
    obtain ⟨hnext, -⟩ := Nat.add_eq_zero_iff.mp h
    exact ⟨fun _ => hnext, ih hnext⟩
  | await target next ih => exact ih h
  | check x amount enough short ih₁ ih₂ =>
    obtain ⟨henough, hshort⟩ := Nat.max_eq_zero_iff.mp h
    exact ⟨⟨henough, hshort⟩, ih₁ henough, ih₂ hshort⟩

theorem waitsFirst_loadAccount (account : AccountId) (h : next.WaitsFirst) :
    (loadAccount account next).WaitsFirst := ⟨nofun, nofun, nofun, nofun, nofun, h⟩

theorem waitsFirst_executeOperation (op : Operation) : (executeOperation op).WaitsFirst := by
  obtain ⟨type, x, amount, y⟩ := op
  refine ⟨nofun, nofun, nofun, ?_⟩
  cases type with
  | deposit => exact waitsFirst_loadAccount x (waitsFirst_of_waits_eq_zero rfl)
  | withdraw => exact waitsFirst_loadAccount x (waitsFirst_of_waits_eq_zero rfl)
  | balance => exact waitsFirst_loadAccount x (waitsFirst_of_waits_eq_zero rfl)
  | transfer =>
    refine waitsFirst_loadAccount _ (waitsFirst_loadAccount _ (waitsFirst_of_waits_eq_zero ?_))
    exact ahead_transfer .semWait x y amount rfl rfl

theorem Moves.waitsFirst (h : s.Moves t s') (hfirst : (s.threads t).code.WaitsFirst) :
    (s'.threads t).code.WaitsFirst := by
  cases h with
  | commit hcode hops =>
    rw [setThread_self]
    exact waitsFirst_of_waits_eq_zero rfl
  | begin op ops hcode hops =>
    rw [setThread_self]
    exact waitsFirst_executeOperation op
  | act a next s₁ th hcode hp =>
    rw [hcode] at hfirst
    rw [setThread_self]
    exact hfirst.2
  | wait target next hcode hlt =>
    rw [hcode] at hfirst
    rw [setThread_self]
    exact ⟨nofun, hfirst⟩
  | proceed target next hcode hle =>
    rw [hcode] at hfirst
    rw [setThread_self]
    exact hfirst
  | short x amount enough short hcode hlt =>
    rw [hcode] at hfirst
    rw [setThread_self]
    exact hfirst.2.2
  | enough x amount enough short hcode hle =>
    rw [hcode] at hfirst
    rw [setThread_self]
    exact hfirst.2.1

theorem reaches_waitsFirst {ledger : Ledger} {txs : Fin n → Transaction}
    (h : Reaches step (initialState ledger txs) s) (t : Fin n) : (s.threads t).code.WaitsFirst := by
  refine h.invariant (fun s => (s.threads t).code.WaitsFirst) (fun a party b hb ha => ?_)
    (waitsFirst_of_waits_eq_zero rfl)
  rcases step_thread hb t with heq | hm
  · rw [heq]
    exact ha
  · exact Moves.waitsFirst hm ha

theorem Moves.halfLoaded (h : s.Moves t s') (hempty : s.pool.emptySlots = 0)
    (hfirst : (s.threads t).code.WaitsFirst) (ht : s.HalfLoaded t) : s'.HalfLoaded t := by
  obtain ⟨hwaits, hlt⟩ := ht
  unfold HalfLoaded
  unfold Code.waits Code.posts at *
  cases h with
  | commit hcode hops =>
    rw [hcode] at hwaits
    exact absurd hwaits (lt_irrefl 0)
  | begin op ops hcode hops =>
    rw [hcode] at hwaits
    exact absurd hwaits (lt_irrefl 0)
  | act a next s₁ th hcode hp =>
    rw [hcode] at hwaits hlt hfirst
    rw [setThread_self]
    by_cases hwait : a = .pool .semWait
    · subst hwait
      simp [perform, PoolAction.perform, hempty] at hp
    by_cases hpost : a = .pool .semPost
    · subst hpost
      have hnone : next.ahead (.pool .semWait) = 0 := hfirst.1 rfl
      simp [Code.ahead, hnone] at hwaits
    · simpa only [Code.ahead, if_neg hwait, if_neg hpost, add_zero] using And.intro hwaits hlt
  | wait target next hcode hlt' =>
    rw [hcode] at hwaits hlt
    rw [setThread_self]
    exact ⟨hwaits, hlt⟩
  | proceed target next hcode hle =>
    rw [hcode] at hwaits hlt
    rw [setThread_self]
    exact ⟨hwaits, hlt⟩
  | short x amount enough short hcode hlt' =>
    rw [hcode] at hwaits hfirst
    exact absurd hwaits (Nat.not_lt.mpr (Nat.max_eq_zero_iff.mpr hfirst.1).le)
  | enough x amount enough short hcode hle =>
    rw [hcode] at hwaits hfirst
    exact absurd hwaits (Nat.not_lt.mpr (Nat.max_eq_zero_iff.mpr hfirst.1).le)

theorem Owns.emptySlots_eq_zero (h : Owns s held) (hfull : bufferPoolSize ≤ s.halfLoaded.card) :
    s.pool.emptySlots = 0 := by
  have hpermits : ∀ t ∈ s.halfLoaded, 1 ≤ (held t).permits := fun t ht =>
    ((h.halfLoaded_iff t).mp (mem_halfLoaded.mp ht)).2
  have hsum : s.halfLoaded.card ≤ ∑ t, (held t).permits :=
    calc s.halfLoaded.card = ∑ _t ∈ s.halfLoaded, 1 := Finset.card_eq_sum_ones _
      _ ≤ ∑ t ∈ s.halfLoaded, (held t).permits := Finset.sum_le_sum hpermits
      _ ≤ ∑ t, (held t).permits :=
        Finset.sum_le_sum_of_subset (Finset.subset_univ s.halfLoaded)
  have htotal := h.pool.permits
  omega

theorem reaches_full {ledger : Ledger} {txs : Fin n → Transaction}
    (h : Reaches step (initialState ledger txs) s) (hfull : bufferPoolSize ≤ s.halfLoaded.card)
    (hreach : Reaches step s s') : bufferPoolSize ≤ s'.halfLoaded.card := by
  refine (hreach.invariant (fun s => Reaches step (initialState ledger txs) s ∧
    bufferPoolSize ≤ s.halfLoaded.card) (fun a party b hb ⟨ha, hfull⟩ => ?_) ⟨h, hfull⟩).2
  obtain ⟨⟨held, howns⟩, -⟩ := reaches_awake ha
  refine ⟨ha.tail ⟨party, hb⟩, hfull.trans (Finset.card_le_card fun t ht => ?_)⟩
  rcases step_thread hb t with heq | hm
  · rw [mem_halfLoaded, HalfLoaded, heq]
    exact mem_halfLoaded.mp ht
  · exact mem_halfLoaded.mpr (Moves.halfLoaded hm (howns.emptySlots_eq_zero hfull)
      (reaches_waitsFirst ha t) (mem_halfLoaded.mp ht))

end WaitsFirst

section Results

variable {s : State n} {ledger : Ledger} {txs : Fin n → Transaction}

/-- A run can be completed from the states, and only from those, in which fewer transfers than there
are slots have got their first slot and not their second. -/
theorem reaches_completable_iff (h : Reaches step (initialState ledger txs) s) :
    (∃ s', Reaches step s s' ∧ ∀ t, s'.Finished t) ↔ s.halfLoaded.card < bufferPoolSize := by
  refine ⟨fun ⟨s', hreach, hfinished⟩ => Nat.lt_of_not_le fun hfull => ?_, reaches_completes h⟩
  have hfull' := reaches_full h hfull hreach
  obtain ⟨t, ht⟩ : s'.halfLoaded.Nonempty := Finset.card_pos.mp ((Nat.succ_pos 4).trans_le hfull')
  have hwaits := (mem_halfLoaded.mp ht).1
  rw [hfinished t] at hwaits
  exact lt_irrefl 0 hwaits

/-- Four of the five transfers with their first slots can still be completed, five cannot. -/
theorem reaches_completable_iff_five :
    (∃ s ∈ runSchedule step (firstSlots [0, 1, 2, 3]) (initialState fiveLedger fiveTransfers),
        s.halfLoaded.card = 4 ∧ ∃ s', Reaches step s s' ∧ ∀ t, s'.Finished t) ∧
      ∃ s ∈ runSchedule step (firstSlots [0, 1, 2, 3, 4]) (initialState fiveLedger fiveTransfers),
        s.halfLoaded.card = 5 ∧ ¬ ∃ s', Reaches step s s' ∧ ∀ t, s'.Finished t := by
  have hfour : ∃ s ∈ runSchedule step (firstSlots [0, 1, 2, 3])
      (initialState fiveLedger fiveTransfers), s.halfLoaded.card = 4 := by decide +kernel
  have hfive : ∃ s ∈ runSchedule step (firstSlots [0, 1, 2, 3, 4])
      (initialState fiveLedger fiveTransfers), s.halfLoaded.card = 5 := by decide +kernel
  obtain ⟨s, hs, hcard⟩ := hfour
  obtain ⟨s', hs', hcard'⟩ := hfive
  refine ⟨⟨s, hs, hcard, (reaches_completable_iff (reaches_of_runSchedule hs)).mpr ?_⟩,
    s', hs', hcard', fun hend => ?_⟩
  · rw [hcard]
    exact Nat.lt_succ_self 4
  · have hlt := (reaches_completable_iff (reaches_of_runSchedule hs')).mp hend
    rw [hcard'] at hlt
    exact lt_irrefl 5 hlt

def transferring (txs : Fin n → Transaction) : Finset (Fin n) :=
  Finset.univ.filter fun t => ∃ op ∈ (txs t).ops, op.type = .transfer

theorem halfLoaded_subset_transferring (h : Reaches step (initialState ledger txs) s) :
    s.halfLoaded ⊆ transferring txs := by
  refine fun t ht => Finset.mem_filter.mpr ⟨Finset.mem_univ t, ?_⟩
  by_contra hnone
  have hposts := (reaches_posts h t).2
  rw [if_neg hnone] at hposts
  have hhalf := mem_halfLoaded.mp ht
  have hpos := hhalf.1
  have hlt := hhalf.2
  omega

/-- If fewer transactions than there are slots have transfers to do, then no run deadlocks, and
every run can be completed from wherever it is. -/
theorem reaches_completable_of_transferring (hfew : (transferring txs).card < bufferPoolSize)
    (h : Reaches step (initialState ledger txs) s) :
    ¬ s.Deadlocked ∧ ∃ s', Reaches step s s' ∧ ∀ t, s'.Finished t := by
  have hcard := (Finset.card_le_card (halfLoaded_subset_transferring h)).trans_lt hfew
  obtain ⟨⟨held, howns⟩, -⟩ := reaches_awake h
  exact ⟨fun hdead => absurd (howns.deadlocked_card hdead) (not_le.mpr hcard),
    reaches_completes h hcard⟩

def fourTransfers (t : Fin 4) : Transaction := fiveTransfers t.castSucc

/-- All four transfers hold their first slot and wait for nothing but a turn. -/
theorem reaches_completable_of_transferring_four :
    ∃ s ∈ runSchedule step ((List.finRange 4).flatMap fun t => List.replicate 16 (.thread t))
        (initialState fiveLedger fourTransfers), s.halfLoaded.card = 4 ∧ ¬ s.Deadlocked ∧
      ∃ s', Reaches step s s' ∧ ∀ t, s'.Finished t := by
  have hrun : ∃ s ∈ runSchedule step ((List.finRange 4).flatMap fun t => List.replicate 16 (.thread t))
      (initialState fiveLedger fourTransfers), s.halfLoaded.card = 4 := by decide +kernel
  obtain ⟨s, hs, hcard⟩ := hrun
  exact ⟨s, hs, hcard,
    reaches_completable_of_transferring (by decide) (reaches_of_runSchedule hs)⟩

end Results

end OsLab.Bank
