import OsLab.Bank.Ownership

/-! The locks, permits and ticks of the shared state belong to the threads that hold them, in every
state of every run. -/

namespace OsLab.Bank

open Interleaving

variable {n : Nat} {held : Fin n → Held} {t : Fin n} {h' : Held}

theorem update_field {β : Type*} (f : Held → β) (hf : f h' = f (held t)) (u : Fin n) :
    f (Function.update held t h' u) = f (held u) := by
  rcases eq_or_ne u t with rfl | hu
  · rw [Function.update_self, hf]
  · rw [Function.update_of_ne hu]

theorem update_of_ne (f : Held → Bool) (u : Fin n) (hu : u ≠ t) :
    f (Function.update held t h' u) = f (held u) := by rw [Function.update_of_ne hu]

structure PoolOwned (pool : BufferPool n) (held : Fin n → Held) : Prop where
  permits : pool.emptySlots + ∑ t, (held t).permits = bufferPoolSize
  lock : MutexOwned id pool.poolLock fun t => (held t).pool

section Pool

variable {pool pool' : BufferPool n}

theorem sum_permits (hpermits : h'.permits = (held t).permits) :
    ∑ u, (Function.update held t h' u).permits = ∑ u, (held u).permits :=
  Finset.sum_congr rfl fun u _ => update_field Held.permits hpermits u

theorem PoolOwned.relock (h : PoolOwned pool held) (hempty : pool'.emptySlots = pool.emptySlots)
    (hpermits : h'.permits = (held t).permits)
    (hlock : MutexOwned id pool'.poolLock fun u => (Function.update held t h' u).pool) :
    PoolOwned pool' (Function.update held t h') where
  permits := by
    rw [hempty, sum_permits hpermits]
    exact h.permits
  lock := hlock

theorem PoolOwned.congr (h : PoolOwned pool held) (hempty : pool'.emptySlots = pool.emptySlots)
    (hlock : pool'.poolLock = pool.poolLock) (hpermits : h'.permits = (held t).permits)
    (hpool : h'.pool = (held t).pool) : PoolOwned pool' (Function.update held t h') :=
  h.relock hempty hpermits (hlock ▸ h.lock.congr (update_field Held.pool hpool))

theorem PoolOwned.move (h : PoolOwned pool held) (hlock : pool'.poolLock = pool.poolLock)
    (hpermits : pool'.emptySlots + h'.permits = pool.emptySlots + (held t).permits)
    (hpool : h'.pool = (held t).pool) : PoolOwned pool' (Function.update held t h') where
  permits := by
    have hsum := sum_update Held.permits held t h'
    have htotal := h.permits
    omega
  lock := hlock ▸ h.lock.congr (update_field Held.pool hpool)

theorem PoolOwned.perform {a : PoolAction} (h : PoolOwned pool held) (ha : a.Allowed (held t))
    (hp : a.perform t pool = some pool') :
    PoolOwned pool' (Function.update held t (a.after (held t))) := by
  cases a with
  | semWait =>
    rw [PoolAction.perform] at hp
    split_ifs at hp with hempty
    obtain rfl := Option.some.inj hp
    refine h.move rfl ?_ rfl
    simp only [PoolAction.after]
    omega
  | semPost =>
    obtain rfl := Option.some.inj hp
    have hpos := ha.2
    refine h.move rfl ?_ rfl
    simp only [PoolAction.after]
    omega
  | lock =>
    rw [PoolAction.perform] at hp
    split_ifs at hp with hfree
    obtain rfl := Option.some.inj hp
    have hlock := h.lock
    rw [hfree] at hlock
    refine h.relock rfl rfl (hlock.acquire Function.injective_id ?_ (update_of_ne Held.pool))
    rw [Function.update_self]
    rfl
  | unlock =>
    obtain rfl := Option.some.inj hp
    refine h.relock rfl rfl (h.lock.release Function.injective_id ha ?_ (update_of_ne Held.pool))
    rw [Function.update_self]
    rfl
  | countLoad => exact (Option.some.inj hp) ▸ h.congr rfl rfl rfl rfl
  | takeSlot _ => exact (Option.some.inj hp) ▸ h.congr rfl rfl rfl rfl
  | countUnload => exact (Option.some.inj hp) ▸ h.congr rfl rfl rfl rfl
  | freeSlot _ => exact (Option.some.inj hp) ▸ h.congr rfl rfl rfl rfl

end Pool

structure LockOwned (account : AccountId) (lock : RwLock n) (held : Fin n → Held) : Prop where
  writer : ∀ t, lock.writer = some t ↔ (account, .write) ∈ (held t).locks
  readers : ∀ t, t ∈ lock.readers ↔ (account, .read) ∈ (held t).locks
  exclusive : lock.writer = none ∨ lock.readers = ∅

theorem LockOwned.congr {x : AccountId} {lock : RwLock n} (h : LockOwned x lock held)
    (hlocks : ∀ mode, (x, mode) ∈ h'.locks ↔ (x, mode) ∈ (held t).locks) :
    LockOwned x lock (Function.update held t h') where
  writer u := by
    rw [update_field (fun h => (x, LockMode.write) ∈ h.locks) (propext (hlocks .write))]
    exact h.writer u
  readers u := by
    rw [update_field (fun h => (x, LockMode.read) ∈ h.locks) (propext (hlocks .read))]
    exact h.readers u
  exclusive := h.exclusive

theorem LockOwned.rdlock {x : AccountId} {lock : RwLock n} (h : LockOwned x lock held)
    (hfree : lock.writer = none) :
    LockOwned x { lock with readers := insert t lock.readers }
      (Function.update held t (LockAction.after x (held t) .rdlock)) where
  writer u := by
    rw [update_field (fun h => (x, LockMode.write) ∈ h.locks) (by simp [LockAction.after])]
    exact h.writer u
  readers u := by
    rcases eq_or_ne u t with rfl | hu
    · simp [LockAction.after]
    · simp [hu, h.readers u]
  exclusive := .inl hfree

theorem LockOwned.wrlock {x : AccountId} {lock : RwLock n} (h : LockOwned x lock held)
    (hfree : lock.writer = none) (hnone : lock.readers = ∅) :
    LockOwned x { lock with writer := some t }
      (Function.update held t (LockAction.after x (held t) .wrlock)) where
  writer u := by
    rcases eq_or_ne u t with rfl | hu
    · simp [LockAction.after]
    · simp [hu, hu.symm, ← h.writer u, hfree]
  readers u := by
    rw [update_field (fun h => (x, LockMode.read) ∈ h.locks) (by simp [LockAction.after])]
    exact h.readers u
  exclusive := .inr hnone

def Held.Ordered (h : Held) : Prop := (h.locks.map Prod.fst).Pairwise (· > ·)

theorem Held.Ordered.not_mem_tail {h : Held} (ho : h.Ordered) {x : AccountId} {mode mode' : LockMode}
    (hhead : h.locks.head? = some (x, mode)) : (x, mode') ∉ h.locks.tail := by
  intro hmem
  obtain ⟨l, hl⟩ := List.head?_eq_some_iff.mp hhead
  rw [Held.Ordered, hl] at ho
  rw [hl] at hmem
  have hlt := List.rel_of_pairwise_cons ho (List.mem_map_of_mem (f := Prod.fst) hmem)
  exact absurd hlt (lt_irrefl x)

theorem LockOwned.unlock {x : AccountId} {lock : RwLock n} {mode : LockMode}
    (h : LockOwned x lock held) (ho : (held t).Ordered)
    (hhead : (held t).locks.head? = some (x, mode)) {lock' : RwLock n}
    (hp : (LockAction.unlock mode).perform t lock = some lock') :
    LockOwned x lock' (Function.update held t (LockAction.after x (held t) (.unlock mode))) := by
  have hmem : (x, mode) ∈ (held t).locks := List.mem_of_mem_head? hhead
  cases mode with
  | read =>
    -- the thread is among the readers, so there is no writer
    obtain rfl := Option.some.inj hp
    have hreads := (h.readers t).mpr hmem
    have hnowriter := h.exclusive.resolve_right (Finset.ne_empty_of_mem hreads)
    refine ⟨fun u => ?_, fun u => ?_, .inl hnowriter⟩
    · rcases eq_or_ne u t with rfl | hu
      · simp [LockAction.after, hnowriter, ho.not_mem_tail hhead]
      · simp [hu, h.writer u]
    · rcases eq_or_ne u t with rfl | hu
      · simp [LockAction.after, ho.not_mem_tail hhead]
      · simp [hu, h.readers u]
  | write =>
    -- the thread is the writer, so there are no readers
    obtain rfl := Option.some.inj hp
    have hown := (h.writer t).mpr hmem
    have hnone := h.exclusive.resolve_left (by simp [hown])
    refine ⟨fun u => ?_, fun u => ?_, .inl rfl⟩
    · rcases eq_or_ne u t with rfl | hu
      · simp [LockAction.after, ho.not_mem_tail hhead]
      · simp [hu, ← h.writer u, hown, hu.symm]
    · rcases eq_or_ne u t with rfl | hu
      · simp [LockAction.after, hnone, ho.not_mem_tail hhead]
      · simp [hu, h.readers u]

theorem LockOwned.perform {x : AccountId} {lock lock' : RwLock n} {a : LockAction}
    (h : LockOwned x lock held) (ho : (held t).Ordered) (ha : a.Allowed x (held t))
    (hp : a.perform t lock = some lock') :
    LockOwned x lock' (Function.update held t (a.after x (held t))) := by
  cases a with
  | rdlock =>
    rw [LockAction.perform] at hp
    split_ifs at hp with hfree
    exact (Option.some.inj hp) ▸ h.rdlock hfree
  | wrlock =>
    rw [LockAction.perform] at hp
    split_ifs at hp with hfree
    exact (Option.some.inj hp) ▸ h.wrlock hfree.1 hfree.2
  | unlock mode => exact h.unlock ho ha hp

theorem LockAction.mem_after {x y : AccountId} {h : Held} {a : LockAction} (hy : y ≠ x)
    (ha : a.Allowed x h) (mode : LockMode) : (y, mode) ∈ (a.after x h).locks ↔ (y, mode) ∈ h.locks := by
  cases a with
  | rdlock => simp [LockAction.after, hy]
  | wrlock => simp [LockAction.after, hy]
  | unlock m =>
    obtain ⟨l, hl⟩ := List.head?_eq_some_iff.mp ha
    simp [LockAction.after, hl, hy]

theorem LockAction.ordered_after {x : AccountId} {h : Held} {a : LockAction} (ho : h.Ordered)
    (ha : a.Allowed x h) : (a.after x h).Ordered := by
  cases a with
  | rdlock => simp [Held.Ordered, LockAction.after, ha.2.2]
  | wrlock =>
    refine List.pairwise_cons.mpr ⟨fun y hy => ?_, ho⟩
    obtain ⟨l, hl, rfl⟩ := List.mem_map.mp hy
    exact ha.2.2 l hl
  | unlock m =>
    unfold Held.Ordered LockAction.after
    rw [List.map_tail]
    exact ho.tail

structure ClockOwned (clock : Clock n) (held : Fin n → Held) : Prop where
  lock : MutexOwned Party.thread clock.tickLock fun t => (held t).tick
  timer : clock.timer = .sleeping ∨ clock.tickLock = some .timer

theorem Party.thread_injective : (Party.thread (n := n)).Injective := fun _ _ => Party.thread.inj

theorem ClockOwned.congr {clock : Clock n} (h : ClockOwned clock held)
    (htick : h'.tick = (held t).tick) : ClockOwned clock (Function.update held t h') where
  lock := h.lock.congr (update_field Held.tick htick)
  timer := h.timer

theorem ClockOwned.acquire {clock : Clock n} (h : ClockOwned clock held)
    (hfree : clock.tickLock = none) (htick : h'.tick = true) :
    ClockOwned { clock with tickLock := some (.thread t) } (Function.update held t h') where
  lock := by
    have hlock := h.lock
    rw [hfree] at hlock
    refine hlock.acquire Party.thread_injective ?_ (update_of_ne Held.tick)
    rwa [Function.update_self]
  timer := .inl (h.timer.resolve_right (by simp [hfree]))

theorem ClockOwned.release {clock : Clock n} (h : ClockOwned clock held)
    (hown : (held t).tick = true) (htick : h'.tick = false) :
    ClockOwned { clock with tickLock := none } (Function.update held t h') where
  lock := by
    refine h.lock.release Party.thread_injective hown ?_ (update_of_ne Held.tick)
    rwa [Function.update_self]
  timer := .inl (h.timer.resolve_right (by simp [(h.lock t).mpr hown]))

theorem ClockOwned.perform {clock clock' : Clock n} {a : TickAction} (h : ClockOwned clock held)
    (ha : a.Allowed (held t)) (hp : a.perform t clock = some clock') :
    ClockOwned clock' (Function.update held t (a.after (held t))) := by
  cases a with
  | lock =>
    rw [TickAction.perform] at hp
    split_ifs at hp with hfree
    exact (Option.some.inj hp) ▸ h.acquire hfree rfl
  | unlock => exact (Option.some.inj hp) ▸ h.release ha rfl
  | read _ => exact (Option.some.inj hp) ▸ h.congr rfl

theorem ClockOwned.timerStep {clock clock' : Clock n} (h : ClockOwned clock held)
    (hp : clock.timerStep = some clock') : ClockOwned clock' held := by
  unfold Clock.timerStep at hp
  cases htimer : clock.timer with
  | sleeping =>
    simp only [htimer] at hp
    split_ifs at hp with hfree
    obtain rfl := Option.some.inj hp
    exact ⟨fun t => by simp [← h.lock t, hfree], .inr rfl⟩
  | locked =>
    simp only [htimer, Option.some.injEq] at hp
    obtain rfl := hp
    exact ⟨h.lock, .inr (h.timer.resolve_left (by simp [htimer]))⟩
  | ticked =>
    simp only [htimer, Option.some.injEq] at hp
    obtain rfl := hp
    have hown := h.timer.resolve_left (by simp [htimer])
    exact ⟨fun t => by simp [← h.lock t, hown], .inl rfl⟩

end OsLab.Bank
