import OsLab.Foundation.CountedList
import OsLab.Foundation.Levels
import OsLab.Sched.Process
import OsLab.Sched.MlfqConfig

/-! The five waiting queues of `data-structures/`, as lists of process pointers. -/

namespace OsLab.Sched

variable {n : Nat}

abbrev FCFSProcessQueue (n : Nat) := CountedList (Fin n)

def fcfsEnqueue (q : FCFSProcessQueue n) (process : Fin n) : FCFSProcessQueue n :=
  q.pushBack process

def fcfsDequeue (q : FCFSProcessQueue n) : Option (Fin n × FCFSProcessQueue n) := q.popFront

abbrev SJFProcessQueue (n : Nat) := CountedList (Fin n)

def sjfEnqueue (ps : Table n) (q : SJFProcessQueue n) (data : Fin n) : SJFProcessQueue n :=
  q.insert (fun curr => !decide ((ps data).burstTime ≥ (ps curr).burstTime)) data

def sjfDequeue (q : SJFProcessQueue n) : Option (Fin n × SJFProcessQueue n) := q.popFront

abbrev STCFProcessQueue (n : Nat) := CountedList (Fin n)

def stcfEnqueue (ps : Table n) (q : STCFProcessQueue n) (data : Fin n) : STCFProcessQueue n :=
  q.insert (fun curr => !decide ((ps data).remainingTime ≥ (ps curr).remainingTime)) data

def stcfDequeue (q : STCFProcessQueue n) : Option (Fin n × STCFProcessQueue n) := q.popFront

structure RRProcessQueue (n : Nat) where
  active : List (Fin n)
  round : List (Fin n)
  pending : List (Fin n)
  size : Nat
  size_eq : size = active.length + round.length + pending.length

def constructRRProcessQueue : RRProcessQueue n := ⟨[], [], [], 0, by simp⟩

def rrEnqueue (q : RRProcessQueue n) (process : Fin n) : RRProcessQueue n where
  active := q.active
  round := q.round
  pending := q.pending ++ [process]
  size := q.size + 1
  size_eq := by simp [q.size_eq]; omega

def rrRequeue (q : RRProcessQueue n) (process : Fin n) : RRProcessQueue n where
  active := q.active
  round := q.round ++ [process]
  pending := q.pending
  size := q.size + 1
  size_eq := by simp [q.size_eq]; omega

def rrAppendPendingToActive (q : RRProcessQueue n) : RRProcessQueue n where
  active := q.active ++ q.pending
  round := q.round
  pending := []
  size := q.size
  size_eq := by simp [q.size_eq]; omega

/-- The first half of `rr_dequeue`: a new batch when the active list is empty. -/
def rrRefill (q : RRProcessQueue n) : RRProcessQueue n :=
  if h : q.active = [] then
    rrAppendPendingToActive
      { active := q.round, round := [], pending := q.pending, size := q.size,
        size_eq := by simp [q.size_eq, h] }
  else q

def rrDequeue (q : RRProcessQueue n) : Option (Fin n × RRProcessQueue n) :=
  let q := rrRefill q
  match h : q.active with
  | [] => none
  | process :: active =>
    some (process, {
      active := active
      round := q.round
      pending := q.pending
      size := q.size - 1
      size_eq := by rw [q.size_eq, h, List.length_cons]; omega })

def RRProcessQueue.members (q : RRProcessQueue n) : List (Fin n) := q.active ++ q.round ++ q.pending

theorem rrEnqueue_members (q : RRProcessQueue n) (p : Fin n) :
    (rrEnqueue q p).members.Perm (p :: q.members) := by
  simp only [RRProcessQueue.members, rrEnqueue, ← List.append_assoc]
  exact List.perm_append_singleton ..

theorem rrRequeue_members (q : RRProcessQueue n) (p : Fin n) :
    (rrRequeue q p).members.Perm (p :: q.members) := by
  simp only [RRProcessQueue.members, rrRequeue, ← List.append_assoc]
  rw [List.append_assoc _ [p], List.singleton_append]
  exact List.perm_middle

theorem rrRefill_members (q : RRProcessQueue n) : (rrRefill q).members = q.members := by
  unfold rrRefill
  split
  · rename_i h
    simp [RRProcessQueue.members, rrAppendPendingToActive, h]
  · rfl

theorem rrRefill_active {q : RRProcessQueue n} (h : (rrRefill q).active = []) :
    q.members = [] := by
  rw [← rrRefill_members]
  unfold rrRefill at h ⊢
  split
  · rename_i ha
    simpa [rrAppendPendingToActive, RRProcessQueue.members, ha] using h
  · rename_i ha
    simp only [ha, dite_false] at h

theorem rrDequeue_eq_some {q q' : RRProcessQueue n} {p : Fin n} (h : rrDequeue q = some (p, q')) :
    (rrRefill q).active = p :: q'.active ∧ q'.round = (rrRefill q).round ∧
      q'.pending = (rrRefill q).pending := by
  unfold rrDequeue at h
  simp only at h
  split at h
  · simp at h
  · rename_i y ys ha
    simp only [Option.some.injEq, Prod.mk.injEq] at h
    obtain ⟨rfl, rfl⟩ := h
    exact ⟨ha, rfl, rfl⟩

theorem rrDequeue_members {q q' : RRProcessQueue n} {p : Fin n} (h : rrDequeue q = some (p, q')) :
    q.members = p :: q'.members := by
  obtain ⟨hactive, hround, hpending⟩ := rrDequeue_eq_some h
  rw [← rrRefill_members, RRProcessQueue.members, RRProcessQueue.members, hactive, hround, hpending,
    List.cons_append, List.cons_append]

theorem rrDequeue_eq_none {q : RRProcessQueue n} : rrDequeue q = none ↔ q.members = [] := by
  unfold rrDequeue
  simp only
  split
  · rename_i h
    simp [rrRefill_active h]
  · rename_i y ys h
    rw [← rrRefill_members]
    simp [RRProcessQueue.members, h]

structure MLFQProcessQueue (n : Nat) (config : MLFQConfig) where
  levelQueues : Levels (Fin n) config.numLevels
  numLevels_pos : 0 < config.numLevels

variable {config : MLFQConfig}

def constructMlfqProcessQueue (config : MLFQConfig) : Option (MLFQProcessQueue n config) :=
  if h : 0 < config.numLevels then some ⟨.empty _, h⟩ else none

def MLFQProcessQueue.members (mq : MLFQProcessQueue n config) : List (Fin n) :=
  mq.levelQueues.members

def resetPriority (p : Process) : Process := { p with priority := 0, timeInQueue := 0 }

/-- The level a process is queued at; a priority past the last level counts as the last one. -/
def levelOf (config : MLFQConfig) (priority : Int) : Nat :=
  min priority.toNat (config.numLevels - 1)

theorem levelOf_lt (h : 0 < config.numLevels) (priority : Int) :
    levelOf config priority < config.numLevels := by
  unfold levelOf
  omega

def mlfqEnqueue (ps : Table n) (mq : MLFQProcessQueue n config) (process : Fin n) :
    Table n × MLFQProcessQueue n config :=
  let ps := if (ps process).priority = unknownTime then ps.modify process resetPriority else ps
  let level := (ps process).priority
  (ps, { mq with levelQueues :=
      mq.levelQueues.push (levelOf config level) (levelOf_lt mq.numLevels_pos level) process })

def mlfqDequeue (mq : MLFQProcessQueue n config) : Option (Fin n × MLFQProcessQueue n config) :=
  mq.levelQueues.pop.map fun r => (r.1, { mq with levelQueues := r.2 })

/-- `mlfq_move_process`; a target outside the levels would be written out of bounds, and no
caller passes one. -/
def mlfqMoveProcess (ps : Table n) (mq : MLFQProcessQueue n config) (process : Fin n)
    (newLevel : Int) : Table n × MLFQProcessQueue n config :=
  let oldLevel := (ps process).priority
  if oldLevel = newLevel then (ps, mq)
  else if oldLevel < 0 ∨ config.numLevels ≤ oldLevel then (ps, mq)
  else if h : 0 ≤ newLevel ∧ newLevel < config.numLevels then
    (ps.modify process fun p => { p with priority := newLevel, timeInQueue := 0 },
      { mq with levelQueues :=
          (mq.levelQueues.remove oldLevel.toNat process).push newLevel.toNat (by omega) process })
  else (ps, mq)

def mlfqPromoteProcess (ps : Table n) (mq : MLFQProcessQueue n config) (process : Fin n)
    (newLevel : Int) := mlfqMoveProcess ps mq process newLevel

def mlfqDemoteProcess (ps : Table n) (mq : MLFQProcessQueue n config) (process : Fin n)
    (newLevel : Int) := mlfqMoveProcess ps mq process newLevel

def mlfqPriorityBoost (ps : Table n) (mq : MLFQProcessQueue n config) :
    Table n × MLFQProcessQueue n config :=
  (mq.members.foldl (fun ps p => ps.modify p resetPriority) ps,
    { mq with levelQueues := mq.levelQueues.collapse mq.numLevels_pos })

def mlfqGetQuantum (config : MLFQConfig) (level : Int) : Int :=
  match config.level? level with
  | none => -1
  | some l => l.timeQuantum

def mlfqGetAllotment (config : MLFQConfig) (level : Int) : Int :=
  match config.level? level with
  | none => -1
  | some l => l.allotment

theorem mlfqEnqueue_eq (ps : Table n) (mq : MLFQProcessQueue n config) {p : Fin n} {i : Nat}
    (hi : i < config.numLevels) (hp : (ps p).priority = i) :
    mlfqEnqueue ps mq p = (ps, { mq with levelQueues := mq.levelQueues.push i hi p }) := by
  have hknown : ¬ (ps p).priority = unknownTime := by
    rw [hp, unknownTime]
    omega
  have hlevel : levelOf config (ps p).priority = i := by
    rw [hp, levelOf]
    omega
  simp only [mlfqEnqueue, if_neg hknown, hlevel]

theorem mlfqEnqueue_members (ps : Table n) (mq : MLFQProcessQueue n config) (p : Fin n) :
    (mlfqEnqueue ps mq p).2.members.Perm (p :: mq.members) := mq.levelQueues.members_push _ (levelOf_lt mq.numLevels_pos _) p

theorem mlfqDequeue_members {mq mq' : MLFQProcessQueue n config} {p : Fin n}
    (h : mlfqDequeue mq = some (p, mq')) : mq.members = p :: mq'.members := by
  simp only [mlfqDequeue, Option.map_eq_some_iff, Prod.exists, Prod.mk.injEq] at h
  obtain ⟨x, lq, hpop, rfl, rfl⟩ := h
  exact Levels.pop_members hpop

theorem mlfqDequeue_eq_none {mq : MLFQProcessQueue n config} :
    mlfqDequeue mq = none ↔ mq.members = [] := by
  rw [mlfqDequeue, Option.map_eq_none_iff, Levels.pop_eq_none, MLFQProcessQueue.members]

def MLFQProcessQueue.level (mq : MLFQProcessQueue n config) (i : Nat) : List (Fin n) :=
  mq.levelQueues.level i

theorem MLFQProcessQueue.mem_members {mq : MLFQProcessQueue n config} {p : Fin n} :
    p ∈ mq.members ↔ ∃ i, p ∈ mq.level i := Levels.mem_members

theorem mlfqEnqueue_level (ps : Table n) (mq : MLFQProcessQueue n config) {p : Fin n} {i : Nat}
    (hi : i < config.numLevels) (hp : (ps p).priority = i) (j : Nat) :
    (mlfqEnqueue ps mq p).2.level j = if j = i then mq.level i ++ [p] else mq.level j := by
  rw [mlfqEnqueue_eq ps mq hi hp]
  exact mq.levelQueues.level_push hi p j

theorem mlfqDequeue_level {mq mq' : MLFQProcessQueue n config} {p : Fin n}
    (h : mlfqDequeue mq = some (p, mq')) : ∃ i, mq.level i = p :: mq'.level i ∧
      (∀ j < i, mq.level j = []) ∧ ∀ j, j ≠ i → mq'.level j = mq.level j := by
  simp only [mlfqDequeue, Option.map_eq_some_iff, Prod.exists, Prod.mk.injEq] at h
  obtain ⟨x, lq, hpop, rfl, rfl⟩ := h
  exact Levels.pop_level hpop

theorem mlfqDequeue_level_sublist {mq mq' : MLFQProcessQueue n config} {p : Fin n}
    (h : mlfqDequeue mq = some (p, mq')) (i : Nat) : (mq'.level i).Sublist (mq.level i) := by
  obtain ⟨j, hj, _, hrest⟩ := mlfqDequeue_level h
  rcases eq_or_ne i j with rfl | hne
  · rw [hj]
    exact List.sublist_cons_self p _
  · rw [hrest i hne]

theorem foldl_resetPriority (ps : Table n) (all : List (Fin n)) (p : Fin n) :
    all.foldl (fun ps p => ps.modify p resetPriority) ps p =
      if p ∈ all then resetPriority (ps p) else ps p := by
  induction all generalizing ps with
  | nil => rw [List.foldl_nil, if_neg List.not_mem_nil]
  | cons r all ih =>
    rw [List.foldl_cons, ih]
    rcases eq_or_ne p r with rfl | hne
    · rw [Table.modify_self, if_pos List.mem_cons_self]
      exact ite_self _
    · rw [Table.modify_of_ne hne]
      simp only [List.mem_cons, hne, false_or]

theorem mlfqPriorityBoost_level (ps : Table n) (mq : MLFQProcessQueue n config) (i : Nat) :
    (mlfqPriorityBoost ps mq).2.level i = if i = 0 then mq.members else [] :=
  mq.levelQueues.level_collapse mq.numLevels_pos i

@[simp] theorem mlfqPriorityBoost_members (ps : Table n) (mq : MLFQProcessQueue n config) :
    (mlfqPriorityBoost ps mq).2.members = mq.members :=
  mq.levelQueues.members_collapse mq.numLevels_pos

end OsLab.Sched
