import OsLab.Foundation.Calls
import OsLab.Foundation.LinkedList
import OsLab.Foundation.StableSort
import OsLab.Sched.ProcessQueues

/-! `sjf-queue.c` and `stcf-queue.c` with their nodes and pointers. Both are stable priority queues,
as long as nobody changes the key of a process that is queued. -/

namespace OsLab.Sched

open LinkedQueue LinkedList

variable {n : Nat}

abbrev SortedMemory (n : Nat) := Memory (Fin n)

namespace SortedMemory

def sjfEnqueue (malloc : Heap (Fin n) → Addr) (ps : Table n) (s : SortedMemory n) (data : Fin n) :
    Option (SortedMemory n) :=
  s.insert malloc (fun curr => !decide ((ps data).burstTime ≥ (ps curr).burstTime)) data

def sjfDequeue (s : SortedMemory n) : Option (Option (Fin n) × SortedMemory n) := s.popHead

def stcfEnqueue (malloc : Heap (Fin n) → Addr) (ps : Table n) (s : SortedMemory n) (data : Fin n) :
    Option (SortedMemory n) :=
  s.insert malloc (fun curr => !decide ((ps data).remainingTime ≥ (ps curr).remainingTime)) data

def stcfDequeue (s : SortedMemory n) : Option (Option (Fin n) × SortedMemory n) := s.popHead

end SortedMemory

inductive SortedKind where
  | sjf
  | stcf
deriving DecidableEq

inductive QueueCall (n : Nat) where
  | enqueue (process : Fin n)
  | dequeue
deriving DecidableEq

def QueueCall.inserted? : QueueCall n → Option (Fin n)
  | .enqueue p => some p
  | .dequeue => none

namespace SortedKind

def key : SortedKind → Process → Int
  | .sjf => Process.burstTime
  | .stcf => Process.remainingTime

def enqueue (malloc : Heap (Fin n) → Addr) (ps : Table n) (s : SortedMemory n) (p : Fin n) :
    SortedKind → Option (SortedMemory n)
  | .sjf => SortedMemory.sjfEnqueue malloc ps s p
  | .stcf => SortedMemory.stcfEnqueue malloc ps s p

def dequeue (s : SortedMemory n) : SortedKind → Option (Option (Fin n) × SortedMemory n)
  | .sjf => SortedMemory.sjfDequeue s
  | .stcf => SortedMemory.stcfDequeue s

def call (kind : SortedKind) (s : SortedMemory n) :
    (Heap (Fin n) → Addr) × Table n × QueueCall n → Option (Option (Fin n) × SortedMemory n)
  | (malloc, ps, .enqueue p) => (kind.enqueue malloc ps s p).map (none, ·)
  | (_, _, .dequeue) => kind.dequeue s

def listCall (kind : SortedKind) (q : CountedList (Fin n)) :
    Table n × QueueCall n → Option (Fin n) × CountedList (Fin n)
  | (ps, .enqueue p) =>
    match kind with
    | .sjf => (none, sjfEnqueue ps q p)
    | .stcf => (none, stcfEnqueue ps q p)
  | (_, .dequeue) =>
    match (match kind with | .sjf => sjfDequeue q | .stcf => stcfDequeue q) with
    | none => (none, q)
    | some (p, q) => (some p, q)

theorem listCall_enqueue (kind : SortedKind) (q : CountedList (Fin n)) (ps : Table n) (p : Fin n) :
    kind.listCall q (ps, .enqueue p) =
      (none, q.insert (fun curr => !decide (kind.key (ps p) ≥ kind.key (ps curr))) p) := by
  cases kind <;> rfl

theorem listCall_dequeue_none (kind : SortedKind) {q : CountedList (Fin n)}
    (h : q.popFront = none) (ps : Table n) : kind.listCall q (ps, .dequeue) = (none, q) := by
  cases kind <;> simp only [listCall, sjfDequeue, stcfDequeue, h]

theorem listCall_dequeue_some (kind : SortedKind) {q q' : CountedList (Fin n)} {p : Fin n}
    (h : q.popFront = some (p, q')) (ps : Table n) :
    kind.listCall q (ps, .dequeue) = (some p, q') := by
  cases kind <;> simp only [listCall, sjfDequeue, stcfDequeue, h]

theorem dequeue_none (kind : SortedKind) {s : SortedMemory n} {l : CountedList (Fin n)}
    (h : s.Holds l) (hl : l.popFront = none) : kind.dequeue s = some (none, s) := by
  cases kind <;> exact h.popHead_none hl

theorem dequeue_some (kind : SortedKind) {s : SortedMemory n} {l l' : CountedList (Fin n)}
    {p : Fin n} (h : s.Holds l) (hl : l.popFront = some (p, l')) :
    ∃ s', kind.dequeue s = some (some p, s') ∧ s'.Holds l' := by
  cases kind <;> exact h.popHead hl

theorem holds_call (kind : SortedKind) {s : SortedMemory n} {l : CountedList (Fin n)}
    (h : s.Holds l) {malloc : Heap (Fin n) → Addr} (hfresh : ∀ heap, malloc heap ∉ heap)
    (c : Table n × QueueCall n) : ∃ s',
      kind.call s (malloc, c) = some ((kind.listCall l c).1, s') ∧
        s'.Holds (kind.listCall l c).2 := by
  obtain ⟨ps, c⟩ := c
  cases c with
  | enqueue p =>
    obtain ⟨s', hinsert, hs'⟩ :=
      h.insert hfresh (fun curr => !decide (kind.key (ps p) ≥ kind.key (ps curr))) p
    have henqueue : kind.enqueue malloc ps s p = some s' := by
      cases kind <;> exact hinsert
    rw [listCall_enqueue]
    exact ⟨s', by rw [call, henqueue, Option.map_some], hs'⟩
  | dequeue =>
    rw [call]
    cases hpop : l.popFront with
    | none =>
      rw [listCall_dequeue_none kind hpop]
      exact ⟨s, kind.dequeue_none h hpop, h⟩
    | some r =>
      rw [listCall_dequeue_some kind hpop]
      exact kind.dequeue_some h hpop

end SortedKind

/-- The processes that are stored, in the order in which they were enqueued, and the fields of all
processes at the last call. -/
structure StableQueue (n : Nat) where
  processes : Table n
  stored : List (Fin n)

namespace StableQueue

def call (kind : SortedKind) (q : StableQueue n) :
    Table n × QueueCall n → Option (Fin n) × StableQueue n
  | (ps, .enqueue p) => (none, ⟨ps, q.stored ++ [p]⟩)
  | (ps, .dequeue) =>
    match takeMin (fun p => kind.key (ps p)) q.stored with
    | none => (none, ⟨ps, q.stored⟩)
    | some (p, rest) => (some p, ⟨ps, rest⟩)

def KeepsKeys (kind : SortedKind) (q : StableQueue n) (c : Table n × QueueCall n) : Prop :=
  ∀ p ∈ q.stored, kind.key (c.1 p) = kind.key (q.processes p)

instance (kind : SortedKind) (q : StableQueue n) : DecidablePred (q.KeepsKeys kind) := fun c =>
  inferInstanceAs (Decidable (∀ p ∈ q.stored, kind.key (c.1 p) = kind.key (q.processes p)))

theorem call_members (kind : SortedKind) (q : StableQueue n) (c : Table n × QueueCall n) :
    (q.stored ++ c.2.inserted?.toList).Perm
      ((q.call kind c).1.toList ++ (q.call kind c).2.stored) := by
  obtain ⟨ps, c⟩ := c
  cases c with
  | enqueue p => exact .refl _
  | dequeue =>
    rw [QueueCall.inserted?, Option.toList_none, List.append_nil, call]
    cases htake : takeMin (fun p => kind.key (ps p)) q.stored with
    | none => exact .refl _
    | some r => exact takeMin_perm htake

end StableQueue

def SortedBy (kind : SortedKind) (l : CountedList (Fin n)) (q : StableQueue n) : Prop :=
  IsStableSort (fun p => kind.key (q.processes p)) l.items q.stored

section Reference

variable {kind : SortedKind} {l : CountedList (Fin n)} {q : StableQueue n}

theorem SortedBy.call (h : SortedBy kind l q) {c : Table n × QueueCall n}
    (hkeys : q.KeepsKeys kind c) :
    (q.call kind c).1 = (kind.listCall l c).1 ∧
      SortedBy kind (kind.listCall l c).2 (q.call kind c).2 := by
  obtain ⟨ps, c⟩ := c
  have hsorted : IsStableSort (fun p => kind.key (ps p)) l.items q.stored :=
    IsStableSort.congr h hkeys
  cases c with
  | enqueue p =>
    rw [SortedKind.listCall_enqueue]
    refine ⟨rfl, hsorted.insert (fun r _ hpass => ?_) fun r _ hstop => ?_⟩
    · simpa using hpass
    · simpa using hstop
  | dequeue =>
    rw [StableQueue.call]
    cases hpop : l.popFront with
    | none =>
      have hnil := CountedList.popFront_eq_none.mp hpop
      rw [kind.listCall_dequeue_none hpop]
      rw [hnil] at hsorted
      rw [hsorted.takeMin_eq_none]
      exact ⟨rfl, show IsStableSort _ l.items _ from hnil ▸ hsorted⟩
    | some r =>
      rw [kind.listCall_dequeue_some hpop]
      rw [CountedList.popFront_eq_some.mp hpop] at hsorted
      obtain ⟨htake, hrest⟩ := hsorted.takeMin_eq_some
      rw [htake]
      exact ⟨rfl, hrest⟩

def SortedMemory.Represents (kind : SortedKind) (s : SortedMemory n) (q : StableQueue n) : Prop :=
  ∃ l, s.Holds l ∧ SortedBy kind l q

namespace SortedMemory

variable {s : SortedMemory n} {malloc : Heap (Fin n) → Addr}

theorem represents_empty (kind : SortedKind) (ps : Table n) :
    SortedMemory.Represents kind (.empty : SortedMemory n) ⟨ps, []⟩ :=
  ⟨.empty, Memory.holds_empty, .nil _⟩

theorem Represents.call (h : s.Represents kind q) (hfresh : ∀ heap, malloc heap ∉ heap)
    {c : Table n × QueueCall n} (hkeys : q.KeepsKeys kind c) : ∃ s',
      kind.call s (malloc, c) = some ((q.call kind c).1, s') ∧
        s'.Represents kind (q.call kind c).2 := by
  obtain ⟨l, hholds, hsorted⟩ := h
  obtain ⟨hresult, hsorted'⟩ := hsorted.call hkeys
  obtain ⟨s', hcall, hholds'⟩ := kind.holds_call hholds hfresh c
  exact ⟨s', hresult ▸ hcall, _, hholds', hsorted'⟩

theorem Represents.run (h : s.Represents kind q)
    {calls : List ((Heap (Fin n) → Addr) × Table n × QueueCall n)}
    (hfresh : ∀ c ∈ calls, ∀ heap, c.1 heap ∉ heap)
    (hkeys : AdmitsAll (StableQueue.call kind) (StableQueue.KeepsKeys kind) q
      (calls.map Prod.snd)) : ∃ s',
      runCalls kind.call s calls =
        some ((foldCalls (StableQueue.call kind) q (calls.map Prod.snd)).1, s') ∧
      s'.Represents kind (foldCalls (StableQueue.call kind) q (calls.map Prod.snd)).2 :=
  runCalls_refines (fun _ _ _ _ h hfresh hkeys => Represents.call h hfresh hkeys) h hfresh hkeys

theorem Represents.size_eq (h : s.Represents kind q) : s.size = q.stored.length := by
  obtain ⟨l, hholds, hsorted⟩ := h
  rw [hholds.size, l.size_eq, hsorted.perm.length_eq]

theorem Represents.dequeue (h : s.Represents kind q) : ∃ result s',
    kind.dequeue s = some (result, s') ∧ (result = none ↔ s.size = 0) ∧
      ∀ p, result = some p → ∃ before after, q.stored = before ++ p :: after ∧
        (∀ a ∈ before, kind.key (q.processes p) < kind.key (q.processes a)) ∧
        ∀ a ∈ after, kind.key (q.processes p) ≤ kind.key (q.processes a) := by
  obtain ⟨l, hholds, hsorted⟩ := h
  rw [hholds.size, l.size_eq]
  cases hpop : l.popFront with
  | none =>
    have hnil := CountedList.popFront_eq_none.mp hpop
    refine ⟨none, s, kind.dequeue_none hholds hpop, by simp [hnil], fun p hp => ?_⟩
    exact absurd hp.symm (Option.some_ne_none p)
  | some r =>
    have hcons := CountedList.popFront_eq_some.mp hpop
    obtain ⟨s', htake, _⟩ := kind.dequeue_some hholds hpop
    have hne : ((l.items.length : Nat) : Int) ≠ 0 := by
      rw [hcons, List.length_cons]
      omega
    refine ⟨some r.1, s', htake, iff_of_false (Option.some_ne_none _) hne, fun p hp => ?_⟩
    obtain rfl := Option.some.inj hp
    rw [SortedBy, hcons] at hsorted
    obtain ⟨before, after, hsplit, hbefore, hafter, _⟩ := hsorted.exists_split
    exact ⟨before, after, hsplit, hbefore, hafter⟩

end SortedMemory

end Reference

/-- Whatever calls are made on an empty queue, it returns what the reference queue returns and holds
what that one stores, as long as no key changes in the queue. -/
theorem sorted_refines_stable (kind : SortedKind) (ps : Table n)
    (calls : List ((Heap (Fin n) → Addr) × Table n × QueueCall n))
    (hfresh : ∀ c ∈ calls, ∀ heap, c.1 heap ∉ heap)
    (hkeys : AdmitsAll (StableQueue.call kind) (StableQueue.KeepsKeys kind) ⟨ps, []⟩
      (calls.map Prod.snd)) : ∃ results s q,
      runCalls kind.call .empty calls = some (results, s) ∧
      foldCalls (StableQueue.call kind) ⟨ps, []⟩ (calls.map Prod.snd) = (results, q) ∧
      s.Represents kind q ∧
      (calls.filterMap fun c => c.2.2.inserted?).Perm (results.reduceOption ++ q.stored) ∧
      s.size = q.stored.length ∧
      ∃ result s', kind.dequeue s = some (result, s') ∧ (result = none ↔ s.size = 0) ∧
        ∀ p, result = some p → ∃ before after, q.stored = before ++ p :: after ∧
          (∀ a ∈ before, kind.key (q.processes p) < kind.key (q.processes a)) ∧
          ∀ a ∈ after, kind.key (q.processes p) ≤ kind.key (q.processes a) := by
  obtain ⟨s, hrun, hs⟩ := (SortedMemory.represents_empty kind ps).run hfresh hkeys
  have hperm := foldCalls_perm (StableQueue.call_members kind) ⟨ps, []⟩ (calls.map Prod.snd)
  rw [List.filterMap_map] at hperm
  exact ⟨_, s, _, hrun, rfl, hs, hperm, hs.size_eq, hs.dequeue⟩

/-- While `p` runs, its key may change: only `r` is still queued. -/
def sampleCalls (ps : Table n) (r p : Fin n) :
    List ((Heap (Fin n) → Addr) × Table n × QueueCall n) :=
  [(nextAddr, ps, .enqueue r), (nextAddr, ps, .enqueue p), (nextAddr, ps, .dequeue),
    (nextAddr, ps.modify p fun p => { p with remainingTime := 0 }, .dequeue)]

theorem sorted_refines_stable_sample : ∃ results s q,
    runCalls (SortedKind.call .stcf) .empty (sampleCalls sampleWorkload.processes 0 1) =
      some (results, s) ∧
    foldCalls (StableQueue.call .stcf) ⟨sampleWorkload.processes, []⟩
      ((sampleCalls sampleWorkload.processes 0 1).map Prod.snd) = (results, q) ∧
    s.Represents .stcf q ∧
    ((sampleCalls sampleWorkload.processes 0 1).filterMap fun c => c.2.2.inserted?).Perm
      (results.reduceOption ++ q.stored) ∧
    s.size = q.stored.length ∧
    ∃ result s', SortedKind.dequeue s .stcf = some (result, s') ∧ (result = none ↔ s.size = 0) ∧
      ∀ p, result = some p → ∃ before after, q.stored = before ++ p :: after ∧
        (∀ a ∈ before, SortedKind.stcf.key (q.processes p) < SortedKind.stcf.key (q.processes a)) ∧
        ∀ a ∈ after, SortedKind.stcf.key (q.processes p) ≤ SortedKind.stcf.key (q.processes a) :=
  sorted_refines_stable .stcf sampleWorkload.processes (sampleCalls sampleWorkload.processes 0 1)
    (by simp [sampleCalls, nextAddr_notMem]) (by decide)

end OsLab.Sched
