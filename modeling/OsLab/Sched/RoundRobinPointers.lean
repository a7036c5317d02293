import OsLab.Foundation.Calls
import OsLab.Foundation.LinkedQueue
import OsLab.Sched.ProcessQueues

/-! `rr-queue.c` with its nodes and pointers: the three lists are spliced at the start of a batch,
and what is returned is what a queue of batches returns. -/

namespace OsLab.Sched

open LinkedQueue

variable {n : Nat}

structure RRMemory (n : Nat) where
  heap : Heap (Fin n)
  active : LinkedQueue
  round : LinkedQueue
  pending : LinkedQueue
  size : Int

namespace RRMemory

def construct : RRMemory n := ⟨∅, .empty, .empty, .empty, 0⟩

def enqueue (malloc : Heap (Fin n) → Addr) (s : RRMemory n) (process : Fin n) :
    Option (RRMemory n) :=
  (pushBack malloc process s.heap s.pending).map fun (heap, pending) =>
    { s with heap, pending, size := s.size + 1 }

def requeue (malloc : Heap (Fin n) → Addr) (s : RRMemory n) (process : Fin n) :
    Option (RRMemory n) :=
  (pushBack malloc process s.heap s.round).map fun (heap, round) =>
    { s with heap, round, size := s.size + 1 }

def appendPendingToActive (s : RRMemory n) : Option (RRMemory n) :=
  match s.pending.head with
  | none => some s
  | some _ =>
    (splice s.heap s.active s.pending).map fun (heap, active) =>
      { s with heap, active, pending := .empty }

/-- The first half of `rr_dequeue`. -/
def refill (s : RRMemory n) : Option (RRMemory n) :=
  match s.active.head with
  | none => appendPendingToActive { s with active := s.round, round := .empty }
  | some _ => some s

def takeActive (s : RRMemory n) : Option (Option (Fin n) × RRMemory n) :=
  match s.active.head with
  | none => some (none, s)
  | some a =>
    (popHead s.heap a s.active).map fun (process, heap, active) =>
      (some process, { s with heap, active, size := s.size - 1 })

def dequeue (s : RRMemory n) : Option (Option (Fin n) × RRMemory n) := s.refill.bind takeActive

end RRMemory

inductive RRCall (n : Nat) where
  | enqueue (process : Fin n)
  | requeue (process : Fin n)
  | dequeue
deriving DecidableEq

def RRCall.inserted? : RRCall n → Option (Fin n)
  | .enqueue p => some p
  | .requeue p => some p
  | .dequeue => none

/-- A call with what it returns; `malloc` may do something else each time. -/
def RRMemory.call (s : RRMemory n) :
    (Heap (Fin n) → Addr) × RRCall n → Option (Option (Fin n) × RRMemory n)
  | (malloc, .enqueue p) => (s.enqueue malloc p).map (none, ·)
  | (malloc, .requeue p) => (s.requeue malloc p).map (none, ·)
  | (_, .dequeue) => s.dequeue

structure BatchQueue (n : Nat) where
  batch : List (Fin n)
  requeued : List (Fin n)
  arrived : List (Fin n)
deriving DecidableEq

namespace BatchQueue

def empty : BatchQueue n := ⟨[], [], []⟩

def members (q : BatchQueue n) : List (Fin n) := q.batch ++ q.requeued ++ q.arrived

/-- When the batch is over, the next one is made of those that came back and then the new ones. -/
def renew (q : BatchQueue n) : BatchQueue n :=
  if q.batch = [] then ⟨q.requeued ++ q.arrived, [], []⟩ else q

def next (q : BatchQueue n) : Option (Fin n) × BatchQueue n :=
  (q.renew.batch.head?, { q.renew with batch := q.renew.batch.tail })

def call (q : BatchQueue n) : RRCall n → Option (Fin n) × BatchQueue n
  | .enqueue p => (none, { q with arrived := q.arrived ++ [p] })
  | .requeue p => (none, { q with requeued := q.requeued ++ [p] })
  | .dequeue => q.next

theorem renew_members (q : BatchQueue n) : q.renew.members = q.members := by
  unfold renew
  split_ifs with h
  · simp [members, h]
  · rfl

theorem renew_batch_eq_nil {q : BatchQueue n} : q.renew.batch = [] ↔ q.members = [] := by
  rw [← renew_members]
  unfold renew
  split_ifs with h
  · simp [members]
  · simp [members, h]

theorem eq_empty {q : BatchQueue n} (h : q.members = []) : q = .empty := by
  obtain ⟨batch, requeued, arrived⟩ := q
  obtain ⟨hfront, rfl⟩ := List.append_eq_nil_iff.mp h
  obtain ⟨rfl, rfl⟩ := List.append_eq_nil_iff.mp hfront
  rfl

theorem next_eq_none {q : BatchQueue n} : q.next.1 = none ↔ q.members = [] := by
  rw [next, List.head?_eq_none_iff, renew_batch_eq_nil]

theorem call_members (q : BatchQueue n) (c : RRCall n) :
    (q.members ++ c.inserted?.toList).Perm ((q.call c).1.toList ++ (q.call c).2.members) := by
  cases c with
  | enqueue p => simp [call, members, RRCall.inserted?]
  | requeue p =>
    simp only [call, members, RRCall.inserted?, Option.toList_some, Option.toList_none,
      List.nil_append, List.append_assoc]
    exact (List.perm_append_comm.append_left q.requeued).append_left q.batch
  | dequeue =>
    simp only [call, next, RRCall.inserted?, Option.toList_none, List.append_nil]
    rw [← q.renew_members]
    cases hbatch : q.renew.batch with
    | nil => simp [members, hbatch]
    | cons p batch => simp [members, hbatch]

end BatchQueue

structure RRMemory.Holds (s : RRMemory n) (active round pending : List (Addr × Fin n)) : Prop where
  isActive : IsQueue s.heap s.active active
  isRound : IsQueue s.heap s.round round
  isPending : IsQueue s.heap s.pending pending
  activeRound : Apart active round
  activePending : Apart active pending
  roundPending : Apart round pending

structure RRMemory.Represents (s : RRMemory n) (q : BatchQueue n) : Prop where
  holds : ∃ active round pending, s.Holds active round pending ∧
    q = ⟨active.map Prod.snd, round.map Prod.snd, pending.map Prod.snd⟩
  size : s.size = q.batch.length + q.requeued.length + q.arrived.length

namespace RRMemory

variable {s : RRMemory n} {q : BatchQueue n} {active round pending : List (Addr × Fin n)}
  {malloc : Heap (Fin n) → Addr}

theorem Holds.enqueue (h : s.Holds active round pending) (hfresh : ∀ heap, malloc heap ∉ heap)
    (p : Fin n) : ∃ s' a, s.enqueue malloc p = some s' ∧
      s'.Holds active round (pending ++ [(a, p)]) ∧ s'.size = s.size + 1 := by
  obtain ⟨heap, lq, hpush, hq, hsame⟩ := pushBack_spec h.isPending (hfresh s.heap) p
  have hactive := apart_append.mpr ⟨h.activePending, h.isActive.apart_fresh (hfresh s.heap) p⟩
  have hround := apart_append.mpr ⟨h.roundPending, h.isRound.apart_fresh (hfresh s.heap) p⟩
  refine ⟨{ s with heap, pending := lq, size := s.size + 1 }, malloc s.heap, ?_,
    ⟨h.isActive.frame_off hsame hactive, h.isRound.frame_off hsame hround, hq, h.activeRound,
      hactive, hround⟩, rfl⟩
  rw [RRMemory.enqueue, hpush, Option.map_some]

theorem Holds.requeue (h : s.Holds active round pending) (hfresh : ∀ heap, malloc heap ∉ heap)
    (p : Fin n) : ∃ s' a, s.requeue malloc p = some s' ∧
      s'.Holds active (round ++ [(a, p)]) pending ∧ s'.size = s.size + 1 := by
  obtain ⟨heap, lq, hpush, hq, hsame⟩ := pushBack_spec h.isRound (hfresh s.heap) p
  have hactive := apart_append.mpr ⟨h.activeRound, h.isActive.apart_fresh (hfresh s.heap) p⟩
  have hpending := apart_append.mpr
    ⟨h.roundPending.symm, h.isPending.apart_fresh (hfresh s.heap) p⟩
  refine ⟨{ s with heap, round := lq, size := s.size + 1 }, malloc s.heap, ?_,
    ⟨h.isActive.frame_off hsame hactive, hq, h.isPending.frame_off hsame hpending, hactive,
      h.activePending, hpending.symm⟩, rfl⟩
  rw [RRMemory.requeue, hpush, Option.map_some]

theorem Holds.refill_of_nil (h : s.Holds [] round pending) :
    ∃ s', s.refill = some s' ∧ s'.Holds (round ++ pending) [] [] ∧ s'.size = s.size := by
  have hhead : s.active.head = none := h.isActive.head_eq_none.mpr rfl
  rw [RRMemory.refill, hhead]
  rcases List.eq_nil_or_concat' pending with rfl | ⟨init, c, rfl⟩
  · have hpending : s.pending.head = none := h.isPending.head_eq_none.mpr rfl
    refine ⟨{ s with active := s.round, round := .empty }, ?_, ?_, rfl⟩
    · simp only [appendPendingToActive, hpending]
    · rw [List.append_nil]
      exact ⟨h.isRound, isQueue_empty s.heap, h.isPending, apart_nil _, apart_nil _, apart_nil _⟩
  · have hne : init ++ [c] ≠ [] := List.concat_ne_nil c init
    obtain ⟨a, hpending⟩ := Option.ne_none_iff_exists'.mp (mt h.isPending.head_eq_none.mp hne)
    obtain ⟨heap, lq, hsplice, hq, _⟩ := splice_spec h.isRound h.isPending hne h.roundPending
    refine ⟨{ s with heap, active := lq, round := .empty, pending := .empty }, ?_,
      ⟨hq, isQueue_empty heap, isQueue_empty heap, apart_nil _, apart_nil _, apart_nil _⟩, rfl⟩
    simp only [appendPendingToActive, hpending, hsplice, Option.map_some]

theorem Holds.refill_of_cons {c : Addr × Fin n} (h : s.Holds (c :: active) round pending) :
    s.refill = some s := by
  rw [RRMemory.refill, h.isActive.chain.1]

theorem Holds.takeActive {c : Addr × Fin n} (h : s.Holds (c :: active) round pending) :
    ∃ s', s.takeActive = some (some c.2, s') ∧ s'.Holds active round pending ∧
      s'.size = s.size - 1 := by
  obtain ⟨heap, lq, hpop, hq, hsame⟩ := popHead_spec h.isActive
  have hround : Apart active round := fun _ ha => h.activeRound (List.mem_cons_of_mem _ ha)
  have hpending : Apart active pending := fun _ ha => h.activePending (List.mem_cons_of_mem _ ha)
  refine ⟨{ s with heap, active := lq, size := s.size - 1 }, ?_,
    ⟨hq, h.isRound.frame_off hsame h.activeRound.symm,
      h.isPending.frame_off hsame h.activePending.symm, hround, hpending, h.roundPending⟩, rfl⟩
  rw [RRMemory.takeActive, h.isActive.chain.1]
  simp only [hpop, Option.map_some]

theorem represents_construct : (construct : RRMemory n).Represents .empty where
  holds := ⟨[], [], [], ⟨isQueue_empty _, isQueue_empty _, isQueue_empty _, apart_nil _, apart_nil _,
    apart_nil _⟩, rfl⟩
  size := rfl

theorem Represents.enqueue (h : s.Represents q) (hfresh : ∀ heap, malloc heap ∉ heap) (p : Fin n) :
    ∃ s', s.enqueue malloc p = some s' ∧ s'.Represents (q.call (.enqueue p)).2 := by
  obtain ⟨active, round, pending, hholds, rfl⟩ := h.holds
  obtain ⟨s', a, hcall, hholds', hsize⟩ := hholds.enqueue hfresh p
  refine ⟨s', hcall, ⟨active, round, pending ++ [(a, p)], hholds', ?_⟩, ?_⟩
  · simp [BatchQueue.call]
  · rw [hsize, h.size]
    simp only [BatchQueue.call, List.length_append, List.length_singleton]
    omega

theorem Represents.requeue (h : s.Represents q) (hfresh : ∀ heap, malloc heap ∉ heap) (p : Fin n) :
    ∃ s', s.requeue malloc p = some s' ∧ s'.Represents (q.call (.requeue p)).2 := by
  obtain ⟨active, round, pending, hholds, rfl⟩ := h.holds
  obtain ⟨s', a, hcall, hholds', hsize⟩ := hholds.requeue hfresh p
  refine ⟨s', hcall, ⟨active, round ++ [(a, p)], pending, hholds', ?_⟩, ?_⟩
  · simp [BatchQueue.call]
  · rw [hsize, h.size]
    simp only [BatchQueue.call, List.length_append, List.length_singleton]
    omega

theorem Represents.refill (h : s.Represents q) :
    ∃ s', s.refill = some s' ∧ s'.Represents q.renew := by
  obtain ⟨active, round, pending, hholds, rfl⟩ := h.holds
  cases active with
  | nil =>
    obtain ⟨s', hrefill, hholds', hsize⟩ := hholds.refill_of_nil
    refine ⟨s', hrefill, ⟨round ++ pending, [], [], hholds', ?_⟩, ?_⟩
    · simp [BatchQueue.renew]
    · rw [hsize, h.size]
      simp [BatchQueue.renew]
  | cons c active =>
    refine ⟨s, hholds.refill_of_cons, ?_⟩
    have hne : (c :: active).map Prod.snd ≠ [] := List.cons_ne_nil _ _
    rwa [BatchQueue.renew, if_neg hne]

theorem Represents.takeActive (h : s.Represents q) : ∃ s',
    s.takeActive = some (q.batch.head?, s') ∧ s'.Represents { q with batch := q.batch.tail } := by
  obtain ⟨active, round, pending, hholds, rfl⟩ := h.holds
  cases active with
  | nil =>
    refine ⟨s, ?_, h⟩
    rw [RRMemory.takeActive, hholds.isActive.head_eq_none.mpr rfl]
    rfl
  | cons c active =>
    obtain ⟨s', htake, hholds', hsize⟩ := hholds.takeActive
    refine ⟨s', htake, ⟨active, round, pending, hholds', rfl⟩, ?_⟩
    rw [hsize, h.size]
    simp only [List.map_cons, List.length_cons, List.tail_cons]
    omega

theorem Represents.dequeue (h : s.Represents q) :
    ∃ s', s.dequeue = some (q.next.1, s') ∧ s'.Represents q.next.2 := by
  obtain ⟨s', hrefill, hs'⟩ := h.refill
  obtain ⟨s'', htake, hs''⟩ := hs'.takeActive
  exact ⟨s'', by rw [RRMemory.dequeue, hrefill, Option.bind_some, htake, BatchQueue.next], hs''⟩

theorem Represents.call (h : s.Represents q) (hfresh : ∀ heap, malloc heap ∉ heap)
    (c : RRCall n) : ∃ s', s.call (malloc, c) = some ((q.call c).1, s') ∧
      s'.Represents (q.call c).2 := by
  cases c with
  | enqueue p =>
    obtain ⟨s', hcall, hs'⟩ := h.enqueue hfresh p
    exact ⟨s', by rw [RRMemory.call, hcall, Option.map_some, BatchQueue.call], hs'⟩
  | requeue p =>
    obtain ⟨s', hcall, hs'⟩ := h.requeue hfresh p
    exact ⟨s', by rw [RRMemory.call, hcall, Option.map_some, BatchQueue.call], hs'⟩
  | dequeue => exact h.dequeue

theorem Represents.run (h : s.Represents q) {calls : List ((Heap (Fin n) → Addr) × RRCall n)}
    (hfresh : ∀ c ∈ calls, ∀ heap, c.1 heap ∉ heap) : ∃ s',
      runCalls RRMemory.call s calls =
        some ((foldCalls BatchQueue.call q (calls.map Prod.snd)).1, s') ∧
      s'.Represents (foldCalls BatchQueue.call q (calls.map Prod.snd)).2 :=
  runCalls_refines (fun _ _ _ c h hfresh _ => Represents.call h hfresh c) h hfresh
    (admitsAll_true _ q _)

theorem Represents.size_eq_zero (h : s.Represents q) : s.size = 0 ↔ q.members = [] := by
  rw [h.size, BatchQueue.members, List.append_eq_nil_iff, List.append_eq_nil_iff,
    ← List.length_eq_zero_iff, ← List.length_eq_zero_iff, ← List.length_eq_zero_iff]
  omega

theorem Represents.tail_eq_none (h : s.Represents q) :
    ∀ lq ∈ [s.active, s.round, s.pending], lq.tail = none ↔ lq.head = none := by
  obtain ⟨active, round, pending, hholds, _⟩ := h.holds
  simp only [List.forall_mem_cons, List.not_mem_nil, false_implies, implies_true, and_true]
  exact ⟨hholds.isActive.tail_eq_none, hholds.isRound.tail_eq_none, hholds.isPending.tail_eq_none⟩

end RRMemory

/-- Whatever calls are made on an empty queue, it returns what the batches return and holds the rest
of what was inserted; its size, its tails and a further `rr_dequeue` tell what it holds. -/
theorem rr_refines_batches (calls : List ((Heap (Fin n) → Addr) × RRCall n))
    (hfresh : ∀ c ∈ calls, ∀ heap, c.1 heap ∉ heap) : ∃ results s q,
      runCalls RRMemory.call .construct calls = some (results, s) ∧
      foldCalls BatchQueue.call .empty (calls.map Prod.snd) = (results, q) ∧
      s.Represents q ∧
      ((calls.map Prod.snd).filterMap RRCall.inserted?).Perm (results.reduceOption ++ q.members) ∧
      s.size = q.batch.length + q.requeued.length + q.arrived.length ∧
      (∀ lq ∈ [s.active, s.round, s.pending], lq.tail = none ↔ lq.head = none) ∧
      ∃ result s', s.dequeue = some (result, s') ∧ (result = none ↔ s.size = 0) := by
  obtain ⟨s, hrun, hs⟩ := RRMemory.represents_construct.run hfresh
  obtain ⟨s', hdequeue, _⟩ := hs.dequeue
  have hperm := foldCalls_perm BatchQueue.call_members .empty (calls.map Prod.snd)
  refine ⟨_, s, _, hrun, rfl, hs, hperm, hs.size, hs.tail_eq_none, _, s', hdequeue, ?_⟩
  rw [hs.size_eq_zero, BatchQueue.next_eq_none]

/-- The process that comes back is served before the one that arrived meanwhile. -/
theorem rr_refines_batches_requeued : ∃ results s q,
    runCalls RRMemory.call .construct ([.enqueue 0, .dequeue, .enqueue 1, .requeue 0, .dequeue].map
      fun c => (nextAddr, c)) = some (results, s) ∧
    foldCalls BatchQueue.call .empty [.enqueue 0, .dequeue, .enqueue 1, .requeue 0, .dequeue] =
      (results, q) ∧
    s.Represents (n := 2) q ∧
    ([.enqueue 0, .dequeue, .enqueue 1, .requeue 0, .dequeue].filterMap RRCall.inserted?).Perm
      (results.reduceOption ++ q.members) ∧
    s.size = q.batch.length + q.requeued.length + q.arrived.length ∧
    (∀ lq ∈ [s.active, s.round, s.pending], lq.tail = none ↔ lq.head = none) ∧
    ∃ result s', s.dequeue = some (result, s') ∧ (result = none ↔ s.size = 0) :=
  rr_refines_batches ([.enqueue 0, .dequeue, .enqueue 1, .requeue 0, .dequeue].map
    fun c => (nextAddr, c)) (by simp [nextAddr_notMem])

namespace RRProcessQueue

def batches (q : RRProcessQueue n) : BatchQueue n := ⟨q.active, q.round, q.pending⟩

def call (q : RRProcessQueue n) : RRCall n → Option (Fin n) × RRProcessQueue n
  | .enqueue p => (none, rrEnqueue q p)
  | .requeue p => (none, rrRequeue q p)
  | .dequeue =>
    match rrDequeue q with
    | none => (none, q)
    | some (p, q) => (some p, q)

theorem batches_refill (q : RRProcessQueue n) : (rrRefill q).batches = q.batches.renew := by
  unfold rrRefill BatchQueue.renew
  split
  · rename_i h
    rw [if_pos (show q.batches.batch = [] from h)]
    rfl
  · rename_i h
    rw [if_neg (show q.batches.batch ≠ [] from h)]

theorem batches_call (q : RRProcessQueue n) (c : RRCall n) :
    q.batches.call c = ((q.call c).1, (q.call c).2.batches) := by
  cases c with
  | enqueue p => rfl
  | requeue p => rfl
  | dequeue =>
    cases hdequeue : rrDequeue q with
    | none =>
      have hnil : q.batches.members = [] := rrDequeue_eq_none.mp hdequeue
      have hempty := BatchQueue.eq_empty hnil
      simp only [BatchQueue.call, call, hdequeue, hempty]
      rfl
    | some r =>
      obtain ⟨hactive, hround, hpending⟩ := rrDequeue_eq_some hdequeue
      have hrenew : q.batches.renew = ⟨r.1 :: r.2.active, r.2.round, r.2.pending⟩ := by
        rw [← batches_refill, batches, hactive, hround, hpending]
      simp only [BatchQueue.call, BatchQueue.next, hrenew, call, hdequeue]
      rfl

end RRProcessQueue

theorem RRMemory.Represents.simulates {s : RRMemory n} {q : RRProcessQueue n}
    (h : s.Represents q.batches) {malloc : Heap (Fin n) → Addr}
    (hfresh : ∀ heap, malloc heap ∉ heap) (c : RRCall n) : ∃ s',
      s.call (malloc, c) = some ((q.call c).1, s') ∧ s'.Represents (q.call c).2.batches := by
  have hcall := h.call hfresh c
  rwa [q.batches_call] at hcall

end OsLab.Sched
