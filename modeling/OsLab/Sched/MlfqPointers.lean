import OsLab.Foundation.Calls
import OsLab.Foundation.LinkedQueue
import OsLab.Sched.ProcessQueues

/-! `mlfq-queue.c` with its nodes and pointers, and the lists that they represent. -/

namespace OsLab.Sched

open LinkedQueue

variable {n k : Nat}

/-- An MLFQ queue with `k` levels, and the processes that it points to. -/
structure MlfqMemory (n k : Nat) where
  processes : Table n
  heap : Heap (Fin n)
  levelQueues : Nat → LinkedQueue
  size : Int

namespace MlfqMemory

def construct (k : Nat) (processes : Table n) : MlfqMemory n k :=
  ⟨processes, ∅, fun _ => .empty, 0⟩

def setProcesses (s : MlfqMemory n k) (processes : Table n) : MlfqMemory n k :=
  { s with processes }

def pushAt (malloc : Heap (Fin n) → Addr) (s : MlfqMemory n k) (level : Int) (process : Fin n) :
    Option (MlfqMemory n k) :=
  if 0 ≤ level ∧ level < k then
    (pushBack malloc process s.heap (s.levelQueues level.toNat)).map fun (heap, q) =>
      { s with heap, levelQueues := Function.update s.levelQueues level.toNat q }
  else none

def enqueue (malloc : Heap (Fin n) → Addr) (s : MlfqMemory n k) (process : Fin n) :
    Option (MlfqMemory n k) :=
  let processes := if (s.processes process).priority = unknownTime then
    s.processes.modify process resetPriority else s.processes
  let level := (processes process).priority
  let level := if (k : Int) ≤ level then (k : Int) - 1 else level
  ((s.setProcesses processes).pushAt malloc level process).map fun s => { s with size := s.size + 1 }

/-- The loop of `mlfq_dequeue` over the levels. -/
def dequeueFrom (s : MlfqMemory n k) : List Nat → Option (Option (Fin n) × MlfqMemory n k)
  | [] => some (none, s)
  | i :: levels =>
    match (s.levelQueues i).head with
    | none => s.dequeueFrom levels
    | some a =>
      (popHead s.heap a (s.levelQueues i)).map fun (process, heap, q) =>
        (some process, { s with
          heap
          levelQueues := Function.update s.levelQueues i q
          size := s.size - 1 })

def dequeue (s : MlfqMemory n k) : Option (Option (Fin n) × MlfqMemory n k) :=
  s.dequeueFrom (List.range k)

/-- The first half of `mlfq_move_process`. -/
def removeFrom (s : MlfqMemory n k) (level : Nat) (process : Fin n) : Option (MlfqMemory n k) :=
  (unlink process s.heap (s.levelQueues level)).map fun (found, heap, q) =>
    { s with
      heap
      levelQueues := Function.update s.levelQueues level q
      size := if found then s.size - 1 else s.size }

def moveProcess (malloc : Heap (Fin n) → Addr) (s : MlfqMemory n k) (process : Fin n)
    (newLevel : Int) : Option (MlfqMemory n k) :=
  let oldLevel := (s.processes process).priority
  if oldLevel = newLevel then some s
  else if oldLevel < 0 ∨ k ≤ oldLevel then some s
  else do
    let s ← s.removeFrom oldLevel.toNat process
    let processes := s.processes.modify process fun p =>
      { p with priority := newLevel, timeInQueue := 0 }
    let s ← (s.setProcesses processes).pushAt malloc newLevel process
    some { s with size := s.size + 1 }

def promoteProcess (malloc : Heap (Fin n) → Addr) (s : MlfqMemory n k) (process : Fin n)
    (newLevel : Int) := s.moveProcess malloc process newLevel

def demoteProcess (malloc : Heap (Fin n) → Addr) (s : MlfqMemory n k) (process : Fin n)
    (newLevel : Int) := s.moveProcess malloc process newLevel

/-- The array `all_processes`, which is allocated for as many as `size` says. -/
def allProcesses (s : MlfqMemory n k) (levels : List Nat) : Option (List (Fin n)) :=
  levels.foldlM (fun all i =>
    collectFrom s.size.toNat s.heap (s.heap.keys.card + 1) (s.levelQueues i).head all) []

def clearLevel (s : MlfqMemory n k) (i : Nat) : Option (MlfqMemory n k) :=
  (freeFrom (s.heap.keys.card + 1) (s.levelQueues i).head s.heap).map fun heap =>
    { s with heap, levelQueues := Function.update s.levelQueues i .empty }

def requeue (malloc : Heap (Fin n) → Addr) (s : MlfqMemory n k) (process : Fin n) :
    Option (MlfqMemory n k) :=
  (s.setProcesses (s.processes.modify process resetPriority)).pushAt malloc 0 process

def priorityBoost (malloc : Heap (Fin n) → Addr) (s : MlfqMemory n k) :
    Option (MlfqMemory n k) := do
  let all ← s.allProcesses (List.range k)
  let s ← (List.range k).foldlM clearLevel s
  all.foldlM (requeue malloc) s

end MlfqMemory

/-- What the queue is for: a list for each level, and the level that each process is at. -/
@[ext]
structure LevelLists (n : Nat) where
  priority : Fin n → Int
  level : Nat → List (Fin n)

namespace LevelLists

def empty (priority : Fin n → Int) : LevelLists n := ⟨priority, fun _ => []⟩

def members (k : Nat) (q : LevelLists n) : List (Fin n) := (List.range k).flatMap q.level

def setLevel (q : LevelLists n) (i : Nat) (l : List (Fin n)) : LevelLists n :=
  { q with level := Function.update q.level i l }

def append (q : LevelLists n) (i : Nat) (p : Fin n) : LevelLists n := q.setLevel i (q.level i ++ [p])

def arrivalLevel (q : LevelLists n) (p : Fin n) : Int :=
  if q.priority p = unknownTime then 0 else q.priority p

def enqueue (q : LevelLists n) (p : Fin n) : LevelLists n :=
  { q with priority := Function.update q.priority p (q.arrivalLevel p) }.append
    (q.arrivalLevel p).toNat p

/-- The head of the first level that is not empty is removed; `none` if they all are. -/
def dequeueFrom (q : LevelLists n) (levels : List Nat) : Option (Fin n) × LevelLists n :=
  match levels.find? fun i => q.level i ≠ [] with
  | none => (none, q)
  | some i => ((q.level i).head?, q.setLevel i (q.level i).tail)

def move (q : LevelLists n) (p : Fin n) (newLevel : Int) : LevelLists n :=
  if q.priority p = newLevel then q
  else
    let old := (q.priority p).toNat
    ({ q.setLevel old ((q.level old).erase p) with
      priority := Function.update q.priority p newLevel }).append newLevel.toNat p

def boost (k : Nat) (q : LevelLists n) : LevelLists n where
  priority p := if p ∈ q.members k then 0 else q.priority p
  level i := if i = 0 then q.members k else []

end LevelLists

inductive MlfqCall (n : Nat) where
  | enqueue (process : Fin n)
  | dequeue
  | promote (process : Fin n) (newLevel : Int)
  | demote (process : Fin n) (newLevel : Int)
  | boost

/-- A call with what it returns; `malloc` may do something else each time. -/
def MlfqMemory.call (s : MlfqMemory n k) :
    (Heap (Fin n) → Addr) × MlfqCall n → Option (Option (Fin n) × MlfqMemory n k)
  | (malloc, .enqueue p) => (s.enqueue malloc p).map (none, ·)
  | (_, .dequeue) => s.dequeue
  | (malloc, .promote p newLevel) => (s.promoteProcess malloc p newLevel).map (none, ·)
  | (malloc, .demote p newLevel) => (s.demoteProcess malloc p newLevel).map (none, ·)
  | (malloc, .boost) => (s.priorityBoost malloc).map (none, ·)

def LevelLists.call (k : Nat) (q : LevelLists n) : MlfqCall n → Option (Fin n) × LevelLists n
  | .enqueue p => (none, q.enqueue p)
  | .dequeue => q.dequeueFrom (List.range k)
  | .promote p newLevel => (none, q.move p newLevel)
  | .demote p newLevel => (none, q.move p newLevel)
  | .boost => (none, q.boost k)

def LevelLists.InRange (k : Nat) (level : Int) : Prop := 0 ≤ level ∧ level < k

instance (k : Nat) (level : Int) : Decidable (LevelLists.InRange k level) :=
  inferInstanceAs (Decidable (_ ∧ _))

def LevelLists.Admits (k : Nat) (q : LevelLists n) : MlfqCall n → Prop
  | .enqueue p => InRange k (q.arrivalLevel p) ∧ p ∉ q.members k
  | .dequeue => True
  | .promote p newLevel => InRange k (q.priority p) ∧ InRange k newLevel
  | .demote p newLevel => InRange k (q.priority p) ∧ InRange k newLevel
  | .boost => True

instance (k : Nat) (q : LevelLists n) : DecidablePred (q.Admits k)
  | .enqueue _ => inferInstanceAs (Decidable (_ ∧ _))
  | .dequeue => inferInstanceAs (Decidable True)
  | .promote _ _ => inferInstanceAs (Decidable (_ ∧ _))
  | .demote _ _ => inferInstanceAs (Decidable (_ ∧ _))
  | .boost => inferInstanceAs (Decidable True)

def HoldsList (h : Heap (Fin n)) (q : LinkedQueue) (l : List (Fin n)) : Prop :=
  ∃ cells, IsQueue h q cells ∧ cells.map Prod.snd = l

/-- Each level holds its list, with each process at most once and at its own level. -/
structure Holds (s : MlfqMemory n k) (q : LevelLists n) : Prop where
  priority : ∀ p, (s.processes p).priority = q.priority p
  queues : ∀ i < k, HoldsList s.heap (s.levelQueues i) (q.level i)
  own : ∀ i < k, ∀ p ∈ q.level i, q.priority p = i
  nodup : ∀ i < k, (q.level i).Nodup
  outside : ∀ i, k ≤ i → q.level i = []

structure Represents (s : MlfqMemory n k) (q : LevelLists n) : Prop extends Holds s q where
  size : s.size = (q.members k).length

section Representation

variable {s : MlfqMemory n k} {q : LevelLists n} {i j : Nat} {p : Fin n}
  {malloc : Heap (Fin n) → Addr}

theorem LevelLists.mem_members : p ∈ q.members k ↔ ∃ i < k, p ∈ q.level i := by
  simp only [LevelLists.members, List.mem_flatMap, List.mem_range]

theorem LevelLists.length_members_setLevel (hi : i < k) (l : List (Fin n)) :
    ((q.setLevel i l).members k).length + (q.level i).length =
      (q.members k).length + l.length := by
  induction k with
  | zero => exact absurd hi i.not_lt_zero
  | succ k ih =>
    simp only [LevelLists.members, List.range_succ, List.flatMap_append, List.flatMap_singleton,
      List.length_append] at ih ⊢
    rcases Nat.lt_succ_iff_lt_or_eq.mp hi with hlt | rfl
    · have hne : (q.setLevel i l).level k = q.level k := Function.update_of_ne hlt.ne' ..
      rw [hne]
      have hlen := ih hlt
      omega
    · have hself : (q.setLevel i l).level i = l := Function.update_self ..
      have hbelow : (List.range i).flatMap (q.setLevel i l).level =
          (List.range i).flatMap q.level :=
        List.flatMap_congr fun j hj => Function.update_of_ne (List.mem_range.mp hj).ne ..
      rw [hself, hbelow]
      omega

theorem LevelLists.length_members_append (hi : i < k) (p : Fin n) :
    ((q.append i p).members k).length = (q.members k).length + 1 := by
  have hlen := LevelLists.length_members_setLevel (q := q) hi (q.level i ++ [p])
  rw [List.length_append, List.length_singleton] at hlen
  rw [LevelLists.append]
  omega

theorem HoldsList.frame {h h' : Heap (Fin n)} {lq lq' : LinkedQueue} {l : List (Fin n)}
    {cells : List (Addr × Fin n)} (hl : HoldsList h lq l) (hq : IsQueue h lq' cells)
    (hdisjoint : ∀ p ∈ l, p ∉ cells.map Prod.snd)
    (hsame : ∀ a ∈ h, a ∉ cells.map Prod.fst → h'.lookup a = h.lookup a) : HoldsList h' lq l := by
  obtain ⟨cells', hq', rfl⟩ := hl
  refine ⟨cells', hq'.frame fun c hc => ?_, rfl⟩
  obtain ⟨next, hnode⟩ := hq'.chain.mem_node hc
  refine hsame c.1 (Finmap.mem_of_lookup_eq_some hnode) fun hmem => ?_
  obtain ⟨d, hd, heq⟩ := List.mem_map.mp hmem
  obtain ⟨next', hnode'⟩ := hq.chain.mem_node hd
  have hvalue : c.2 = d.2 := by
    rw [heq, hnode] at hnode'
    exact congrArg Node.value (Option.some.inj hnode')
  exact hdisjoint c.2 (List.mem_map_of_mem hc) (hvalue ▸ List.mem_map_of_mem hd)

theorem Holds.setLevel (h : Holds s q) (hi : i < k) {cells cells' : List (Addr × Fin n)}
    {heap : Heap (Fin n)} {lq : LinkedQueue} (hq : IsQueue s.heap (s.levelQueues i) cells)
    (hcells : cells.map Prod.snd = q.level i) (hq' : IsQueue heap lq cells')
    (hsame : ∀ a ∈ s.heap, a ∉ cells.map Prod.fst → heap.lookup a = s.heap.lookup a)
    (hnodup : (cells'.map Prod.snd).Nodup)
    (hown : ∀ p ∈ cells'.map Prod.snd, q.priority p = i) (size : Int) :
    Holds (k := k) ⟨s.processes, heap, Function.update s.levelQueues i lq, size⟩
      (q.setLevel i (cells'.map Prod.snd)) := by
  have hself : (q.setLevel i (cells'.map Prod.snd)).level i = cells'.map Prod.snd :=
    Function.update_self ..
  have hother : ∀ j ≠ i, (q.setLevel i (cells'.map Prod.snd)).level j = q.level j := fun j hj =>
    Function.update_of_ne hj ..
  refine ⟨h.priority, fun j hj => ?_, fun j hj => ?_, fun j hj => ?_, fun j hj => ?_⟩
  · show HoldsList heap (Function.update s.levelQueues i lq j) _
    rcases eq_or_ne j i with rfl | hne
    · rw [hself, Function.update_self]
      exact ⟨cells', hq', rfl⟩
    · rw [hother j hne, Function.update_of_ne hne]
      refine (h.queues j hj).frame hq (fun p hp hmem => ?_) hsame
      rw [hcells] at hmem
      have heq := (h.own j hj p hp).symm.trans (h.own i hi p hmem)
      exact hne (Int.ofNat.inj heq)
  · rcases eq_or_ne j i with rfl | hne
    · rw [hself]
      exact hown
    · rw [hother j hne]
      exact h.own j hj
  · rcases eq_or_ne j i with rfl | hne
    · rwa [hself]
    · rw [hother j hne]
      exact h.nodup j hj
  · rw [hother j (by omega)]
    exact h.outside j hj

theorem Holds.pushAt (h : Holds s q) (hi : i < k) (hfresh : ∀ heap, malloc heap ∉ heap)
    (hp : p ∉ q.level i) (hown : q.priority p = i) :
    ∃ s', s.pushAt malloc i p = some s' ∧ Holds s' (q.append i p) ∧ s'.size = s.size ∧
      s'.processes = s.processes := by
  obtain ⟨cells, hq, hcells⟩ := h.queues i hi
  obtain ⟨heap, lq, hpush, hq', hsame⟩ := pushBack_spec hq (hfresh s.heap) p
  have hvalues : (cells ++ [(malloc s.heap, p)]).map Prod.snd = q.level i ++ [p] := by
    rw [List.map_append, hcells]
    rfl
  refine ⟨⟨s.processes, heap, Function.update s.levelQueues i lq, s.size⟩, ?_, ?_, rfl, rfl⟩
  · rw [MlfqMemory.pushAt, if_pos ⟨Int.natCast_nonneg i, Int.ofNat_lt.mpr hi⟩, Int.toNat_natCast,
      hpush]
    rfl
  · rw [LevelLists.append, ← hvalues]
    refine h.setLevel hi hq hcells hq' (fun a ha hmem => hsame a ?_) ?_ ?_ s.size
    · rw [List.map_append, List.mem_append, not_or]
      refine ⟨hmem, fun heq => hfresh s.heap ?_⟩
      have heq : a = malloc s.heap := List.mem_singleton.mp heq
      rwa [← heq]
    · rw [hvalues]
      exact List.nodup_append.mpr ⟨h.nodup i hi, List.nodup_singleton p, fun a ha b hb heq =>
        hp (List.mem_singleton.mp hb ▸ heq ▸ ha)⟩
    · rw [hvalues]
      exact List.forall_mem_append.mpr ⟨h.own i hi, List.forall_mem_singleton.mpr hown⟩

theorem LevelLists.InRange.exists_eq {level : Int} (h : LevelLists.InRange k level) :
    ∃ i < k, level = i := ⟨level.toNat, by unfold InRange at h; omega, by unfold InRange at h; omega⟩

theorem Holds.setPriority (h : Holds s q) (hp : p ∉ q.members k) (level : Int)
    (f : Process → Process) (hf : (f (s.processes p)).priority = level) :
    Holds (s.setProcesses (s.processes.modify p f))
      { q with priority := Function.update q.priority p level } := by
  have hne : ∀ i < k, ∀ r ∈ q.level i, r ≠ p := fun i hi r hr heq =>
    hp (LevelLists.mem_members.mpr ⟨i, hi, heq ▸ hr⟩)
  refine ⟨fun r => ?_, h.queues, fun i hi r hr => ?_, h.nodup, h.outside⟩
  · show (s.processes.modify p f r).priority = Function.update q.priority p level r
    rcases eq_or_ne r p with rfl | hr
    · rw [Table.modify_self, Function.update_self, hf]
    · rw [Table.modify_of_ne hr, Function.update_of_ne hr, h.priority]
  · exact (Function.update_of_ne (hne i hi r hr) ..).trans (h.own i hi r hr)

theorem Holds.arrive (h : Holds s q) (hp : p ∉ q.members k) :
    Holds (s.setProcesses (if (s.processes p).priority = unknownTime then
      s.processes.modify p resetPriority else s.processes))
      { q with priority := Function.update q.priority p (q.arrivalLevel p) } := by
  rw [h.priority, LevelLists.arrivalLevel]
  split_ifs
  · exact h.setPriority hp 0 resetPriority rfl
  · rw [Function.update_eq_self]
    exact h

theorem Represents.enqueue (h : Represents s q) (hfresh : ∀ heap, malloc heap ∉ heap)
    (hadmits : q.Admits k (.enqueue p)) : ∃ s', s.enqueue malloc p = some s' ∧
      Represents s' (q.enqueue p) := by
  obtain ⟨hrange, hnew⟩ := hadmits
  obtain ⟨i, hi, hlevel⟩ := hrange.exists_eq
  have harrive := h.toHolds.arrive hnew
  have hnot : p ∉ q.level i := fun hp => hnew (LevelLists.mem_members.mpr ⟨i, hi, hp⟩)
  obtain ⟨s', hpush, hholds, hsize, _⟩ :=
    harrive.pushAt hi hfresh hnot ((Function.update_self ..).trans hlevel)
  have hpriority := (harrive.priority p).trans ((Function.update_self ..).trans hlevel)
  rw [LevelLists.enqueue, hlevel, Int.toNat_natCast]
  rw [hlevel] at hholds
  refine ⟨{ s' with size := s'.size + 1 }, ?_, ⟨?_, ?_⟩⟩
  · have hin : ¬ (k : Int) ≤ i := by omega
    unfold MlfqMemory.enqueue
    simp only [MlfqMemory.setProcesses] at hpriority
    simp only [hpriority, if_neg hin, hpush, Option.map_some]
  · exact ⟨hholds.priority, hholds.queues, hholds.own, hholds.nodup, hholds.outside⟩
  · rw [LevelLists.length_members_append hi]
    show s'.size + 1 = _
    rw [hsize, Nat.cast_succ]
    exact congrArg (· + 1) h.size

theorem Represents.takeHead {l : List (Fin n)} (h : Represents s q) (hi : i < k)
    (hlist : q.level i = p :: l) : ∃ a heap lq, (s.levelQueues i).head = some a ∧
      popHead s.heap a (s.levelQueues i) = some (p, heap, lq) ∧
      Represents (k := k) ⟨s.processes, heap, Function.update s.levelQueues i lq, s.size - 1⟩
        (q.setLevel i l) := by
  obtain ⟨cells, hq, hcells⟩ := h.queues i hi
  rw [hlist] at hcells
  obtain ⟨⟨a, x⟩, cells, rfl, rfl, rfl⟩ := List.map_eq_cons_iff.mp hcells
  obtain ⟨heap, lq, hpop, hq', hsame⟩ := popHead_spec hq
  have hnodup := h.nodup i hi
  have hown := h.own i hi
  rw [hlist] at hnodup hown
  refine ⟨a, heap, lq, hq.chain.1, hpop, ⟨?_, ?_⟩⟩
  · exact h.toHolds.setLevel hi hq (hcells.trans hlist.symm) hq' (fun a _ hmem => hsame a hmem)
      (List.nodup_cons.mp hnodup).2 (fun p hp => hown p (List.mem_cons_of_mem _ hp)) _
  · have hlen := LevelLists.length_members_setLevel (q := q) hi (cells.map Prod.snd)
    rw [hlist, List.length_cons] at hlen
    show s.size - 1 = ((q.setLevel i (cells.map Prod.snd)).members k).length
    rw [h.size]
    omega

theorem Represents.head_eq_none (h : Represents s q) (hi : i < k) :
    (s.levelQueues i).head = none ↔ q.level i = [] := by
  obtain ⟨cells, hq, hcells⟩ := h.queues i hi
  rw [hq.head_eq_none, ← hcells, List.map_eq_nil_iff]

theorem Represents.dequeueFrom (h : Represents s q) {levels : List Nat}
    (hlevels : ∀ i ∈ levels, i < k) : ∃ s',
      s.dequeueFrom levels = some ((q.dequeueFrom levels).1, s') ∧
        Represents s' (q.dequeueFrom levels).2 := by
  induction levels with
  | nil => exact ⟨s, rfl, h⟩
  | cons i levels ih =>
    obtain ⟨hi, hrest⟩ := List.forall_mem_cons.mp hlevels
    cases hlist : q.level i with
    | nil =>
      have habstract : q.dequeueFrom (i :: levels) = q.dequeueFrom levels := by
        simp only [LevelLists.dequeueFrom, List.find?_cons, hlist, ne_eq, not_true_eq_false,
          decide_false]
      rw [MlfqMemory.dequeueFrom, (h.head_eq_none hi).mpr hlist, habstract]
      exact ih hrest
    | cons p l =>
      obtain ⟨a, heap, lq, hhead, hpop, hs'⟩ := h.takeHead hi hlist
      have habstract : q.dequeueFrom (i :: levels) = (some p, q.setLevel i l) := by
        simp [LevelLists.dequeueFrom, hlist]
      rw [MlfqMemory.dequeueFrom, hhead, habstract]
      refine ⟨_, ?_, hs'⟩
      simp only [hpop, Option.map_some]

theorem Represents.removeFrom (h : Represents s q) (hi : i < k) (p : Fin n) : ∃ s',
    s.removeFrom i p = some s' ∧ Represents s' (q.setLevel i ((q.level i).erase p)) ∧
      s'.processes = s.processes := by
  obtain ⟨cells, hq, hcells⟩ := h.queues i hi
  obtain ⟨heap, lq, cells', hunlink, hq', hvalues, _, hsame⟩ := unlink_spec hq p
  rw [hcells] at hunlink hvalues
  refine ⟨⟨s.processes, heap, Function.update s.levelQueues i lq,
    if decide (p ∈ q.level i) then s.size - 1 else s.size⟩, ?_, ⟨?_, ?_⟩, rfl⟩
  · rw [MlfqMemory.removeFrom, hunlink, Option.map_some]
  · rw [← hvalues]
    refine h.toHolds.setLevel hi hq hcells hq' (fun a _ hmem => hsame a hmem) ?_ ?_ _
    · rw [hvalues]
      exact (h.nodup i hi).erase p
    · rw [hvalues]
      exact fun r hr => h.own i hi r (List.mem_of_mem_erase hr)
  · have hlen := LevelLists.length_members_setLevel (q := q) hi ((q.level i).erase p)
    have hsize := h.size
    by_cases hp : p ∈ q.level i
    · have hpos := List.length_pos_of_mem hp
      rw [List.length_erase_of_mem hp] at hlen
      simp only [hp, decide_true, if_true]
      omega
    · rw [List.erase_of_not_mem hp] at hlen ⊢
      simp only [hp, decide_false, Bool.false_eq_true, if_false]
      omega

theorem Represents.notMem_erase (h : Represents s q) (hi : i < k) (hpriority : q.priority p = i) :
    p ∉ (q.setLevel i ((q.level i).erase p)).members k := by
  intro hp
  obtain ⟨j, hj, hmem⟩ := LevelLists.mem_members.mp hp
  rcases eq_or_ne j i with rfl | hne
  · have hself : (q.setLevel j ((q.level j).erase p)).level j = (q.level j).erase p :=
      Function.update_self ..
    rw [hself] at hmem
    exact ((h.nodup j hj).mem_erase_iff.mp hmem).1 rfl
  · have hother : (q.setLevel i ((q.level i).erase p)).level j = q.level j :=
      Function.update_of_ne hne ..
    rw [hother] at hmem
    exact hne (Int.ofNat.inj ((h.own j hj p hmem).symm.trans hpriority))

theorem Represents.move {newLevel : Int} (h : Represents s q)
    (hfresh : ∀ heap, malloc heap ∉ heap) (hrange : LevelLists.InRange k (q.priority p))
    (hnew : LevelLists.InRange k newLevel) :
    ∃ s', s.moveProcess malloc p newLevel = some s' ∧ Represents s' (q.move p newLevel) := by
  by_cases hsame : q.priority p = newLevel
  · refine ⟨s, ?_, by rwa [LevelLists.move, if_pos hsame]⟩
    simp only [MlfqMemory.moveProcess, h.priority, if_pos hsame]
  · obtain ⟨i, hi, hpriority⟩ := hrange.exists_eq
    obtain ⟨j, hj, rfl⟩ := hnew.exists_eq
    have hin : ¬ (q.priority p < 0 ∨ (k : Int) ≤ q.priority p) := by omega
    obtain ⟨s1, hremove, hs1, _⟩ := h.removeFrom hi p
    have hnot := h.notMem_erase hi hpriority
    have hset := hs1.toHolds.setPriority hnot j
      (fun r => { r with priority := (j : Int), timeInQueue := 0 }) rfl
    have hnotj : p ∉ (q.setLevel i ((q.level i).erase p)).level j := fun hp =>
      hnot (LevelLists.mem_members.mpr ⟨j, hj, hp⟩)
    obtain ⟨s2, hpush, hs2, hsize, _⟩ := hset.pushAt hj hfresh hnotj (Function.update_self ..)
    rw [LevelLists.move, if_neg hsame, hpriority, Int.toNat_natCast, Int.toNat_natCast]
    refine ⟨{ s2 with size := s2.size + 1 }, ?_, ⟨?_, ?_⟩⟩
    · simp only [MlfqMemory.moveProcess, h.priority, if_neg hsame, if_neg hin]
      rw [hpriority, Int.toNat_natCast, hremove]
      simp only [Option.bind_eq_bind, Option.bind_some, hpush]
    · exact ⟨hs2.priority, hs2.queues, hs2.own, hs2.nodup, hs2.outside⟩
    · rw [LevelLists.length_members_append hj]
      show s2.size + 1 = _
      rw [hsize, Nat.cast_succ]
      exact congrArg (· + 1) hs1.size

theorem Represents.allProcesses (h : Represents s q) :
    s.allProcesses (List.range k) = some (q.members k) := by
  have hroom : (q.members k).length ≤ s.size.toNat := by
    rw [h.size]
    rfl
  suffices hall : ∀ m ≤ k, s.allProcesses (List.range m) = some (q.members m) from hall k le_rfl
  intro m hm
  induction m with
  | zero => rfl
  | succ m ih =>
    obtain ⟨cells, hq, hcells⟩ := h.queues m hm
    have hmembers : q.members (m + 1) = q.members m ++ cells.map Prod.snd := by
      rw [hcells, LevelLists.members, LevelLists.members, List.range_succ, List.flatMap_append,
        List.flatMap_singleton]
    have hle : (q.members (m + 1)).length ≤ (q.members k).length := by
      exact ((List.range_sublist.mpr hm).flatMap q.level).length_le
    have hprev := ih (Nat.le_of_succ_le hm)
    rw [MlfqMemory.allProcesses] at hprev ⊢
    rw [List.range_succ, List.foldlM_append, hprev]
    rw [hmembers, List.length_append, List.length_map] at hle
    have hcollect := collectFrom_spec (q.members m) hq.chain
      (Nat.lt_succ_of_le (hq.chain.length_le hq.nodup)) (hle.trans hroom)
    rw [hmembers]
    simpa using hcollect

theorem Holds.clearLevel (h : Holds s q) (hi : i < k) : ∃ s', s.clearLevel i = some s' ∧
    Holds s' (q.setLevel i []) ∧ s'.size = s.size := by
  obtain ⟨cells, hq, hcells⟩ := h.queues i hi
  obtain ⟨heap, hfree, hsame⟩ := freeFrom_spec hq.chain hq.nodup
    (Nat.lt_succ_of_le (hq.chain.length_le hq.nodup))
  refine ⟨⟨s.processes, heap, Function.update s.levelQueues i .empty, s.size⟩, ?_, ?_, rfl⟩
  · rw [MlfqMemory.clearLevel, hfree, Option.map_some]
  · exact h.setLevel hi hq hcells (isQueue_empty heap) (fun a _ hmem => hsame a hmem) .nil
      (fun p hp => absurd hp List.not_mem_nil) s.size

theorem Holds.clearLevels (h : Holds s q) {levels : List Nat} (hlevels : ∀ i ∈ levels, i < k) :
    ∃ s', levels.foldlM MlfqMemory.clearLevel s = some s' ∧
      Holds s' { q with level := fun i => if i ∈ levels then [] else q.level i } ∧
      s'.size = s.size := by
  induction levels generalizing s q with
  | nil => exact ⟨s, rfl, by simpa using h, rfl⟩
  | cons i levels ih =>
    obtain ⟨hi, hrest⟩ := List.forall_mem_cons.mp hlevels
    obtain ⟨s1, hclear, hs1, hsize⟩ := h.clearLevel hi
    obtain ⟨s2, hclears, hs2, hsize'⟩ := ih hs1 hrest
    refine ⟨s2, ?_, ?_, hsize'.trans hsize⟩
    · rw [List.foldlM_cons, hclear]
      exact hclears
    · have hlevel : (fun j => if j ∈ levels then [] else (q.setLevel i []).level j) =
          fun j => if j ∈ i :: levels then [] else q.level j := by
        funext j
        by_cases hj : j ∈ levels
        · rw [if_pos hj, if_pos (List.mem_cons_of_mem i hj)]
        · rw [if_neg hj]
          rcases eq_or_ne j i with rfl | hne
          · rw [if_pos List.mem_cons_self]
            exact Function.update_self ..
          · rw [if_neg (List.not_mem_cons_of_ne_of_not_mem hne hj)]
            exact Function.update_of_ne hne ..
      rw [← hlevel]
      exact hs2

def LevelLists.requeued (q : LevelLists n) (done : List (Fin n)) : LevelLists n where
  priority p := if p ∈ done then 0 else q.priority p
  level i := if i = 0 then done else []

theorem LevelLists.mem_members_requeued {done : List (Fin n)}
    (h : p ∈ (q.requeued done).members k) : p ∈ done := by
  obtain ⟨i, _, hmem⟩ := LevelLists.mem_members.mp h
  rcases eq_or_ne i 0 with rfl | hne
  · exact hmem
  · rw [show (q.requeued done).level i = [] from if_neg hne] at hmem
    exact absurd hmem List.not_mem_nil

theorem LevelLists.requeued_concat (q : LevelLists n) (done : List (Fin n)) (p : Fin n) :
    ({ q.requeued done with
      priority := Function.update (q.requeued done).priority p 0 } : LevelLists n).append 0 p =
      q.requeued (done ++ [p]) := by
  unfold append setLevel requeued
  congr 1
  · funext r
    rcases eq_or_ne r p with rfl | hne
    · simp
    · simp [hne]
  · funext i
    rcases eq_or_ne i 0 with rfl | hne
    · rw [Function.update_self]
      rfl
    · rw [Function.update_of_ne hne, if_neg hne]
      exact if_neg hne

theorem Holds.requeues (hfresh : ∀ heap, malloc heap ∉ heap) {all done : List (Fin n)}
    (h : Holds s (q.requeued done)) (hk : all ≠ [] → 0 < k) (hnodup : (done ++ all).Nodup) :
    ∃ s', all.foldlM (MlfqMemory.requeue malloc) s = some s' ∧
      Holds s' (q.requeued (done ++ all)) ∧ s'.size = s.size := by
  induction all generalizing s done with
  | nil =>
    rw [List.append_nil]
    exact ⟨s, rfl, h, rfl⟩
  | cons p all ih =>
    have hpos := hk (List.cons_ne_nil p all)
    have hnew : p ∉ done := fun hp =>
      (List.nodup_append.mp hnodup).2.2 p hp p List.mem_cons_self rfl
    have hset := h.setPriority (fun hp => hnew (LevelLists.mem_members_requeued hp)) 0
      resetPriority rfl
    obtain ⟨s1, hpush, hs1, hsize, _⟩ := hset.pushAt hpos hfresh hnew (Function.update_self ..)
    rw [LevelLists.requeued_concat] at hs1
    rw [List.append_cons] at hnodup ⊢
    obtain ⟨s2, hrest, hs2, hsize'⟩ := ih hs1 (fun _ => hpos) hnodup
    refine ⟨s2, ?_, hs2, hsize'.trans hsize⟩
    rw [List.foldlM_cons, MlfqMemory.requeue]
    exact (congrArg (· >>= _) hpush).trans hrest

theorem Holds.members_nodup (h : Holds s q) : (q.members k).Nodup := by
  rw [LevelLists.members, List.nodup_flatMap]
  refine ⟨fun i hi => h.nodup i (List.mem_range.mp hi), ?_⟩
  refine List.Pairwise.imp_of_mem (fun {i j} hi hj hne p hp hp' => ?_) (List.nodup_range (n := k))
  have heq := (h.own i (List.mem_range.mp hi) p hp).symm.trans (h.own j (List.mem_range.mp hj) p hp')
  exact hne (Int.ofNat.inj heq)

theorem LevelLists.members_boost (k : Nat) (q : LevelLists n) :
    (q.boost k).members k = q.members k := by
  cases k with
  | zero => rfl
  | succ k =>
    have hrest : (List.range k).flatMap (fun i => (q.boost (k + 1)).level (i + 1)) = [] :=
      List.flatMap_eq_nil_iff.mpr fun i _ => rfl
    rw [LevelLists.members, List.range_succ_eq_map, List.flatMap_cons, List.flatMap_map, hrest,
      List.append_nil]
    rfl

theorem Represents.boost (h : Represents s q) (hfresh : ∀ heap, malloc heap ∉ heap) :
    ∃ s', s.priorityBoost malloc = some s' ∧ Represents s' (q.boost k) := by
  obtain ⟨s1, hclear, hs1, hsize⟩ :=
    h.toHolds.clearLevels fun i hi => List.mem_range.mp hi
  have hempty : ({ q with level := fun i => if i ∈ List.range k then [] else q.level i } :
      LevelLists n) = q.requeued [] := by
    unfold LevelLists.requeued
    congr 1
    funext i
    rcases Nat.lt_or_ge i k with hi | hi
    · rw [if_pos (List.mem_range.mpr hi)]
      split_ifs <;> rfl
    · rw [if_neg (by simpa using hi), h.outside i hi]
      split_ifs <;> rfl
  rw [hempty] at hs1
  have hk : q.members k ≠ [] → 0 < k := by
    rintro hne
    refine Nat.pos_of_ne_zero fun hk => hne ?_
    rw [hk]
    rfl
  obtain ⟨s2, hrequeue, hs2, hsize'⟩ := hs1.requeues hfresh hk h.toHolds.members_nodup
  refine ⟨s2, ?_, ⟨hs2, ?_⟩⟩
  · rw [MlfqMemory.priorityBoost, h.allProcesses]
    simp only [Option.bind_eq_bind, Option.bind_some, hclear, hrequeue]
  · rw [hsize', hsize, h.size, LevelLists.members_boost]

theorem represents_construct (k : Nat) (processes : Table n) :
    Represents (MlfqMemory.construct k processes) (.empty fun p => (processes p).priority) where
  priority _ := rfl
  queues _ _ := ⟨[], isQueue_empty ∅, rfl⟩
  own _ _ _ hp := absurd hp List.not_mem_nil
  nodup _ _ := .nil
  outside _ _ := rfl
  size := by simp [MlfqMemory.construct, LevelLists.members, LevelLists.empty]

theorem Represents.call (h : Represents s q) (hfresh : ∀ heap, malloc heap ∉ heap)
    {c : MlfqCall n} (hadmits : q.Admits k c) : ∃ s',
      s.call (malloc, c) = some ((q.call k c).1, s') ∧ Represents s' (q.call k c).2 := by
  cases c with
  | enqueue p =>
    obtain ⟨s', hcall, hs'⟩ := h.enqueue hfresh hadmits
    exact ⟨s', by rw [MlfqMemory.call, hcall, Option.map_some, LevelLists.call], hs'⟩
  | dequeue => exact h.dequeueFrom fun i hi => List.mem_range.mp hi
  | promote p newLevel =>
    obtain ⟨s', hcall, hs'⟩ := h.move hfresh hadmits.1 hadmits.2
    exact ⟨s', congrArg (Option.map (none, ·)) hcall, hs'⟩
  | demote p newLevel =>
    obtain ⟨s', hcall, hs'⟩ := h.move hfresh hadmits.1 hadmits.2
    exact ⟨s', congrArg (Option.map (none, ·)) hcall, hs'⟩
  | boost =>
    obtain ⟨s', hcall, hs'⟩ := h.boost hfresh
    exact ⟨s', by rw [MlfqMemory.call, hcall, Option.map_some, LevelLists.call], hs'⟩

end Representation

theorem Represents.run {s : MlfqMemory n k} {q : LevelLists n} (h : Represents s q)
    {calls : List ((Heap (Fin n) → Addr) × MlfqCall n)}
    (hfresh : ∀ c ∈ calls, ∀ heap, c.1 heap ∉ heap)
    (hadmits : AdmitsAll (LevelLists.call k) (LevelLists.Admits k) q (calls.map Prod.snd)) : ∃ s',
      runCalls MlfqMemory.call s calls =
        some ((foldCalls (LevelLists.call k) q (calls.map Prod.snd)).1, s') ∧
      Represents s' (foldCalls (LevelLists.call k) q (calls.map Prod.snd)).2 :=
  runCalls_refines (fun _ _ _ _ h hfresh hadmits => Represents.call h hfresh hadmits) h hfresh hadmits

/-- Whatever calls are made on an empty queue, it returns what the lists return and represents them;
a level has a tail exactly if it has a head. -/
theorem mlfq_refines_lists (processes : Table n)
    (calls : List ((Heap (Fin n) → Addr) × MlfqCall n))
    (hfresh : ∀ c ∈ calls, ∀ heap, c.1 heap ∉ heap)
    (hadmits : AdmitsAll (LevelLists.call k) (LevelLists.Admits k)
      (.empty fun p => (processes p).priority) (calls.map Prod.snd)) : ∃ results s q,
    runCalls MlfqMemory.call (.construct k processes) calls = some (results, s) ∧
    foldCalls (LevelLists.call k) (.empty fun p => (processes p).priority) (calls.map Prod.snd) =
      (results, q) ∧
    Represents s q ∧ ∀ i < k, (s.levelQueues i).tail = none ↔ (s.levelQueues i).head = none := by
  obtain ⟨s, hrun, hs⟩ := (represents_construct k processes).run hfresh hadmits
  refine ⟨_, s, _, hrun, rfl, hs, fun i hi => ?_⟩
  obtain ⟨cells, hq, _⟩ := hs.queues i hi
  exact hq.tail_eq_none

def boostedCalls (p q : Fin n) : List (MlfqCall n) :=
  [.enqueue p, .enqueue q, .demote p 1, .boost, .dequeue, .dequeue]

theorem mlfq_refines_lists_boosted : ∃ results s q,
    runCalls MlfqMemory.call (.construct 2 sampleWorkload.processes)
      ((boostedCalls 0 1).map fun c => (nextAddr, c)) = some (results, s) ∧
    foldCalls (LevelLists.call 2) (.empty fun p => (sampleWorkload.processes p).priority)
      (boostedCalls 0 1) = (results, q) ∧
    Represents s q ∧ ∀ i < 2, (s.levelQueues i).tail = none ↔ (s.levelQueues i).head = none :=
  mlfq_refines_lists (k := 2) sampleWorkload.processes
    ((boostedCalls 0 1).map fun c => (nextAddr, c)) (by simp [boostedCalls, nextAddr_notMem])
    (by decide)

example : (foldCalls (LevelLists.call 2) (.empty fun p => (sampleWorkload.processes p).priority)
    (boostedCalls 0 1)).1 = [none, none, none, none, some 1, some 0] := by decide

namespace MLFQProcessQueue

variable {config : MLFQConfig} {ps : Table n} {mq : MLFQProcessQueue n config} {p : Fin n}

def lists (ps : Table n) (mq : MLFQProcessQueue n config) : LevelLists n :=
  ⟨fun p => (ps p).priority, mq.level⟩

def call (ps : Table n) (mq : MLFQProcessQueue n config) :
    MlfqCall n → Option (Fin n) × Table n × MLFQProcessQueue n config
  | .enqueue p => (none, mlfqEnqueue ps mq p)
  | .dequeue =>
    match mlfqDequeue mq with
    | none => (none, ps, mq)
    | some (p, mq) => (some p, ps, mq)
  | .promote p newLevel => (none, mlfqPromoteProcess ps mq p newLevel)
  | .demote p newLevel => (none, mlfqDemoteProcess ps mq p newLevel)
  | .boost => (none, mlfqPriorityBoost ps mq)

theorem lists_enqueue
    (hrange : LevelLists.InRange config.numLevels ((mq.lists ps).arrivalLevel p)) :
    (mlfqEnqueue ps mq p).2.lists (mlfqEnqueue ps mq p).1 = (mq.lists ps).enqueue p := by
  have hpriority : (fun r => ((if (ps p).priority = unknownTime then
      ps.modify p resetPriority else ps) r).priority) =
        Function.update (fun r => (ps r).priority) p ((mq.lists ps).arrivalLevel p) := by
    by_cases hnew : (ps p).priority = unknownTime
    · rw [if_pos hnew, show (mq.lists ps).arrivalLevel p = 0 from if_pos hnew]
      exact Table.field_modify Process.priority ps p resetPriority
    · rw [if_neg hnew, show (mq.lists ps).arrivalLevel p = (ps p).priority from if_neg hnew]
      exact (Function.update_eq_self p fun r => (ps r).priority).symm
  obtain ⟨i, hi, hlevel⟩ := hrange.exists_eq
  have hown := congrFun hpriority p
  rw [Function.update_self, hlevel] at hown
  have hat : levelOf config i = i := by
    rw [levelOf]
    omega
  rw [LevelLists.enqueue, hlevel]
  refine LevelLists.ext (hlevel ▸ hpriority) ?_
  simp only [mlfqEnqueue, hown, hat]
  exact mq.levelQueues.level_push_eq_update hi p

theorem lists_dequeue : (mq.lists ps).dequeueFrom (List.range config.numLevels) =
    ((mq.call ps .dequeue).1, (mq.call ps .dequeue).2.2.lists (mq.call ps .dequeue).2.1) := by
  cases hdequeue : mlfqDequeue mq with
  | none =>
    have hempty := mlfqDequeue_eq_none.mp hdequeue
    rw [MLFQProcessQueue.members, Levels.members_eq_flatMap, List.flatMap_eq_nil_iff] at hempty
    have hfind : (List.range config.numLevels).find? (fun i => (mq.lists ps).level i ≠ []) = none := by
      refine List.find?_eq_none.mpr fun i hi => ?_
      have hlevel : (mq.lists ps).level i = [] := hempty i hi
      simp [hlevel]
    simp only [LevelLists.dequeueFrom, hfind, call, hdequeue]
  | some r =>
    obtain ⟨p, mq'⟩ := r
    obtain ⟨i, hi, hbefore, hother⟩ := mlfqDequeue_level hdequeue
    have hlt : i < config.numLevels := by
      by_contra hle
      exact List.cons_ne_nil _ _ (hi.symm.trans (mq.levelQueues.level_outside (Nat.le_of_not_lt hle)))
    have hfind : (List.range config.numLevels).find? (fun i => (mq.lists ps).level i ≠ []) = some i := by
      refine List.find?_range_eq_some.mpr ⟨?_, List.mem_range.mpr hlt, fun j hj => ?_⟩
      · simp [lists, hi]
      · simp [lists, hbefore j hj]
    simp only [LevelLists.dequeueFrom, hfind, call, hdequeue]
    refine Prod.ext (congrArg List.head? hi) (LevelLists.ext rfl (funext fun j => ?_))
    show Function.update mq.level i (mq.level i).tail j = mq'.level j
    rcases eq_or_ne j i with rfl | hne
    · rw [Function.update_self, hi, List.tail_cons]
    · rw [Function.update_of_ne hne, hother j hne]

theorem lists_move {newLevel : Int}
    (hrange : LevelLists.InRange config.numLevels (ps p).priority)
    (hnew : LevelLists.InRange config.numLevels newLevel) :
    (mlfqMoveProcess ps mq p newLevel).2.lists (mlfqMoveProcess ps mq p newLevel).1 =
      (mq.lists ps).move p newLevel := by
  have hin : ¬ ((ps p).priority < 0 ∨ config.numLevels ≤ (ps p).priority) := by
    unfold LevelLists.InRange at hrange
    omega
  have hold : (ps p).priority.toNat < config.numLevels := by
    unfold LevelLists.InRange at hrange
    omega
  have htarget : newLevel.toNat < config.numLevels := by
    unfold LevelLists.InRange at hnew
    omega
  by_cases hsame : (ps p).priority = newLevel
  · rw [LevelLists.move, if_pos (show (mq.lists ps).priority p = newLevel from hsame)]
    simp only [mlfqMoveProcess, if_pos hsame]
  · rw [LevelLists.move, if_neg (show (mq.lists ps).priority p ≠ newLevel from hsame)]
    simp only [mlfqMoveProcess, if_neg hsame, if_neg hin]
    rw [dif_pos (show 0 ≤ newLevel ∧ newLevel < config.numLevels from hnew)]
    refine LevelLists.ext (Table.field_modify Process.priority ps p _)
      ((Levels.level_push_eq_update _ htarget p).trans ?_)
    rw [mq.levelQueues.level_remove_eq_update hold]
    rfl

theorem lists_boost : (mlfqPriorityBoost ps mq).2.lists (mlfqPriorityBoost ps mq).1 =
    (mq.lists ps).boost config.numLevels := by
  have hmembers : mq.members = (mq.lists ps).members config.numLevels := mq.levelQueues.members_eq_flatMap
  refine LevelLists.ext (funext fun p => ?_) (funext fun i => ?_)
  · rw [LevelLists.boost, ← hmembers]
    refine (congrArg Process.priority (foldl_resetPriority ps mq.members p)).trans ?_
    exact apply_ite Process.priority _ _ _
  · rw [LevelLists.boost, ← hmembers]
    exact mlfqPriorityBoost_level ps mq i

theorem lists_call {c : MlfqCall n} (hadmits : (mq.lists ps).Admits config.numLevels c) :
    (mq.lists ps).call config.numLevels c =
      ((mq.call ps c).1, (mq.call ps c).2.2.lists (mq.call ps c).2.1) := by
  cases c with
  | enqueue p => exact congrArg (none, ·) (lists_enqueue hadmits.1).symm
  | dequeue => exact lists_dequeue
  | promote p newLevel => exact congrArg (none, ·) (lists_move hadmits.1 hadmits.2).symm
  | demote p newLevel => exact congrArg (none, ·) (lists_move hadmits.1 hadmits.2).symm
  | boost => exact congrArg (none, ·) lists_boost.symm

end MLFQProcessQueue

theorem Represents.simulates {config : MLFQConfig} {ps : Table n} {mq : MLFQProcessQueue n config}
    {s : MlfqMemory n config.numLevels} (h : Represents s (mq.lists ps))
    {malloc : Heap (Fin n) → Addr} (hfresh : ∀ heap, malloc heap ∉ heap) {c : MlfqCall n}
    (hadmits : (mq.lists ps).Admits config.numLevels c) : ∃ s',
      s.call (malloc, c) = some ((mq.call ps c).1, s') ∧
        Represents s' ((mq.call ps c).2.2.lists (mq.call ps c).2.1) := by
  have hcall := h.call hfresh hadmits
  rwa [MLFQProcessQueue.lists_call hadmits] at hcall

end OsLab.Sched
