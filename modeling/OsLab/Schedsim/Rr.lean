import OsLab.Foundation.Rotation
import OsLab.Foundation.Turns
import OsLab.Schedsim.Fcfs

/-! The tick-stepped `schedule_rr`. -/

namespace OsLab.Schedsim

open Sched

variable {n : Nat}

/-- `unqueued` is the array of pointers up to `unqueued_counter`. -/
structure Rr (n : Nat) where
  state : SchedulerState n
  unqueued : List (Fin n)
  queue : List (Fin n)
  currentProcess : Option (Fin n)
  ganttEntry : GanttEntry
  currentQuantumLeft : Int
  completeCounter : Nat

namespace Rr

def start (w : Workload n) : Rr n :=
  ⟨initialState w, List.finRange n, [], none, .zero, 0, 0⟩

def checkArrivals (s : Rr n) : Rr n :=
  let (unqueued, queue) := sweep s.state.hasArrived Fcfs.enqueue s.unqueued s.queue
  { s with unqueued, queue }

def startSlice (quantumTime : Int) (s : Rr n) (p : Fin n) : Rr n :=
  let t := s.state.currentTime
  { s with
    state := { s.state with processes :=
      if (s.state.processes p).startTime = unknownTime then
        s.state.processes.modify p fun q => { q with startTime := t }
      else s.state.processes }
    ganttEntry := { s.ganttEntry with name := (s.state.processes p).pid, start := t }
    currentQuantumLeft := quantumTime }

/-- The process that runs; `none` if there is none and none in the queue. -/
def pick (quantumTime : Int) (s : Rr n) : Option (Fin n × Rr n) :=
  match s.currentProcess with
  | some p => some (p, s)
  | none =>
    match s.queue with
    | [] => none
    | p :: queue => some (p, { s with queue, currentProcess := some p }.startSlice quantumTime p)

def tick (s : Rr n) (p : Fin n) : Rr n :=
  { s with
    state := s.state.tick p
    currentQuantumLeft := s.currentQuantumLeft - 1 }

def endSlice (s : Rr n) : Rr n :=
  { s with
    state := s.state.closeEntry s.ganttEntry
    ganttEntry := .zero
    currentProcess := none }

def completeOrPreempt (s : Rr n) (p : Fin n) : Rr n :=
  if (s.state.processes p).remainingTime = 0 then
    { s with
      state := s.state.finish p
      completeCounter := s.completeCounter + 1 }.endSlice
  else if s.currentQuantumLeft = 0 then { s with queue := Fcfs.enqueue s.queue p }.endSlice
  else s

def idleTick (s : Rr n) : Rr n := { s with state := s.state.idleTick }

def round (quantumTime : Int) (s : Rr n) : Option (Rr n) :=
  if s.completeCounter < n then
    match s.checkArrivals.pick quantumTime with
    | none => some s.checkArrivals.idleTick
    | some (p, s) => some ((s.tick p).checkArrivals.completeOrPreempt p)
  else none

def runs (quantumTime : Int) (s : Rr n) : Option (Fin n) :=
  if s.completeCounter < n then (s.checkArrivals.pick quantumTime).map Prod.fst else none

end Rr

def scheduleRr (w : Workload n) (quantumTime : Int) (fuel : Nat) : Option (SchedulerState n) :=
  (Loop.run (Rr.round quantumTime) fuel (Rr.start w)).map Rr.state

namespace Rr

variable {quantumTime : Int} {s : Rr n} {p : Fin n}

theorem checkArrivals_eq (s : Rr n) : s.checkArrivals = { s with
    unqueued := (swept s.state.hasArrived s.unqueued).1
    queue := s.queue ++ (swept s.state.hasArrived s.unqueued).2 } := by
  unfold checkArrivals
  rw [sweep_eq, Fcfs.foldl_enqueue]

theorem pick_eq_some {s₁ : Rr n} (hs : s.pick quantumTime = some (p, s₁)) :
    s.currentProcess = some p ∧ s₁ = s ∨
      s.currentProcess = none ∧ ∃ queue, s.queue = p :: queue ∧
        s₁ = { s with queue, currentProcess := some p }.startSlice quantumTime p := by
  unfold pick at hs
  split at hs
  · rename_i hrun
    cases hs
    exact .inl ⟨hrun, rfl⟩
  · rename_i hrun
    split at hs
    · cases hs
    · rename_i hqueue
      cases hs
      exact .inr ⟨hrun, _, hqueue, rfl⟩

theorem pick_eq_none (hs : s.pick quantumTime = none) : s.currentProcess = none ∧ s.queue = [] := by
  unfold pick at hs
  split at hs
  · cases hs
  · rename_i hrun
    split at hs
    · rename_i hqueue
      exact ⟨hrun, hqueue⟩
    · cases hs

end Rr

/-- The entry that `schedule_rr` makes for a slice. -/
def sliceEntry (w : Workload n) (d : Segment (Fin n)) : GanttEntry :=
  ⟨(w.processes d.process).pid, d.start, d.stop⟩

def entered (w : Workload n) (slices : List (Segment (Fin n))) (p : Fin n) : Int :=
  ((own slices p).getLast?.map Segment.stop).getD (w.arrivalTime p)

/-- The next slice starts after those before it, at most a quantum for every other process after
its own process has joined the queue. -/
structure NextSlice (w : Workload n) (q : Int) (slices : List (Segment (Fin n)))
    (d : Segment (Fin n)) : Prop where
  frontier_le : frontier slices ≤ d.start
  entered_le : entered w slices d.process ≤ d.start
  le : d.start ≤ entered w slices d.process + (n - 1) * q
  pos : 1 ≤ d.length
  length_le : d.length ≤ q

/-- All pieces are `q` long but the last, which may be shorter. -/
def CutInto (q b : Int) (pieces : List Int) : Prop :=
  ∃ init last, pieces = init ++ [last] ∧ (∀ x ∈ init, x = q) ∧ 1 ≤ last ∧ last ≤ q ∧ pieces.sum = b

theorem entered_snoc_of_ne {w : Workload n} {slices : List (Segment (Fin n))} {d : Segment (Fin n)}
    {p : Fin n} (hp : d.process ≠ p) : entered w (slices ++ [d]) p = entered w slices p := by
  rw [entered, own_snoc_of_ne hp, entered]

theorem entered_snoc_self (w : Workload n) (slices : List (Segment (Fin n))) (d : Segment (Fin n)) :
    entered w (slices ++ [d]) d.process = d.stop := by
  rw [entered, own_snoc_self, List.getLast?_concat]
  rfl

theorem entered_of_fresh {w : Workload n} {slices : List (Segment (Fin n))} {p : Fin n}
    (h : ∀ d ∈ slices, d.process ≠ p) : entered w slices p = w.arrivalTime p := by
  rw [entered, own_eq_nil h]
  rfl

namespace Rr

def undone (s : Rr n) : List (Fin n) := s.currentProcess.toList ++ s.queue ++ s.unqueued

def sliceLeft (s : Rr n) : Int := if s.currentProcess.isSome then s.currentQuantumLeft else 0

/-- What the slice that has begun has given to `p`. -/
def elapsed (q : Int) (s : Rr n) (p : Fin n) : Int :=
  if s.currentProcess = some p then q - s.currentQuantumLeft else 0

structure InSlice (w : Workload n) (q : Int) (slices : List (Segment (Fin n))) (s : Rr n)
    (p : Fin n) : Prop where
  name : s.ganttEntry.name = (w.processes p).pid
  start : s.ganttEntry.start + q = s.state.currentTime + s.currentQuantumLeft
  frontier_le : frontier slices ≤ s.ganttEntry.start
  entered_le : entered w slices p ≤ s.ganttEntry.start
  le : s.ganttEntry.start ≤ entered w slices p + (n - 1) * q
  left_nonneg : 0 ≤ s.currentQuantumLeft
  left_le : s.currentQuantumLeft ≤ q
  owed : 0 ≤ (s.state.processes p).remainingTime

/-- The chart holds `slices`, and the queue lets nobody wait for more than a slice of everybody
else. -/
structure Sliced (w : Workload n) (q : Int) (slices : List (Segment (Fin n))) (s : Rr n) : Prop where
  record : ∀ p, (s.state.processes p).pid = (w.processes p).pid ∧
    (s.state.processes p).arrivalTime = w.arrivalTime p
  nodup : s.undone.Nodup
  fresh : ∀ p ∈ s.unqueued, ∀ d ∈ slices, d.process ≠ p
  unarrived : ∀ p ∈ s.unqueued, s.state.currentTime ≤ w.arrivalTime p
  rotation : Rotation.Inv ⟨s.queue, s.currentProcess,
    slices.map Segment.process ++ s.currentProcess.toList⟩
  gantt : s.state.gantt = slices.map (sliceEntry w)
  turns : EachTurn (NextSlice w q) slices
  frontier_le : frontier slices ≤ s.state.currentTime
  current : ∀ p ∈ s.currentProcess, InSlice w q slices s p
  waits : ∀ before p after, s.queue = before ++ p :: after →
    entered w slices p ≤ s.state.currentTime ∧
      s.state.currentTime + s.sliceLeft + before.length * q ≤ entered w slices p + (n - 1) * q
  account : ∀ p, (s.state.processes p).remainingTime + served slices p + s.elapsed q p =
    w.burstTime p
  owed : ∀ p ∈ s.queue ++ s.unqueued, 1 ≤ (s.state.processes p).remainingTime
  whole : ∀ p ∈ s.undone, ∀ d ∈ own slices p, d.length = q
  cut : ∀ p ∉ s.undone, CutInto q (w.burstTime p) ((own slices p).map Segment.length)

variable {q : Int} {w : Workload n} {slices : List (Segment (Fin n))} {s s' : Rr n} {p : Fin n}

theorem checkArrivals_undone (s : Rr n) : s.checkArrivals.undone.Perm s.undone := by
  rw [checkArrivals_eq]
  unfold undone
  simp only [List.append_assoc]
  exact ((swept_perm _ _).append_left _).append_left _

theorem Sliced.length_le (h : Sliced w q slices s) : s.undone.length ≤ n := by
  have hlength := h.nodup.length_le_card
  rwa [Fintype.card_fin] at hlength

theorem Sliced.sliceLeft_le (h : Sliced w q slices s) :
    0 ≤ s.sliceLeft ∧ s.sliceLeft ≤ s.currentProcess.toList.length * q := by
  unfold sliceLeft
  cases hrun : s.currentProcess with
  | none => simp
  | some p =>
    have hslice := h.current p hrun
    rw [Option.isSome_some, if_pos rfl, Option.toList_some, List.length_singleton, Nat.cast_one,
      one_mul]
    exact ⟨hslice.left_nonneg, hslice.left_le⟩

theorem wait_le {k m : Nat} {left now : Int} (hq : 1 ≤ q) (hleft : left ≤ k * q)
    (hlength : k + m + 1 ≤ n) : now + left + m * q ≤ now + (n - 1) * q := by
  have hle : ((k : Int) + m) * q ≤ (n - 1) * q :=
    mul_le_mul_of_nonneg_right (by omega) (by omega)
  rw [add_mul] at hle
  omega

theorem Sliced.scanned (h : Sliced w q slices s) (hq : 1 ≤ q) :
    Sliced w q slices s.checkArrivals ∧
      ∀ p ∈ s.checkArrivals.unqueued, s.state.currentTime < w.arrivalTime p := by
  have hundone := checkArrivals_undone s
  have hnodup := hundone.nodup_iff.mpr h.nodup
  have hlength := h.length_le
  rw [← hundone.length_eq] at hlength
  rw [checkArrivals_eq] at hundone hnodup hlength ⊢
  have harrived : ∀ p, s.state.hasArrived p = true ↔ w.arrivalTime p ≤ s.state.currentTime := by
    intro p
    rw [SchedulerState.hasArrived, decide_eq_true_eq, (h.record p).2]
  have htaken : ∀ p ∈ (swept s.state.hasArrived s.unqueued).2,
      p ∈ s.unqueued ∧ w.arrivalTime p = s.state.currentTime := by
    intro p hp
    obtain ⟨hmem, hle⟩ := mem_swept_taken.mp hp
    exact ⟨hmem, ((harrived p).mp hle).antisymm (h.unarrived p hmem)⟩
  have hleft : ∀ p ∈ (swept s.state.hasArrived s.unqueued).1, p ∈ s.unqueued := fun p hp =>
    (mem_swept_left.mp hp).1
  unfold undone at hnodup hlength
  dsimp only at hnodup hlength
  have hjoin : ∀ before p after, (swept s.state.hasArrived s.unqueued).2 = before ++ p :: after →
      entered w slices p ≤ s.state.currentTime ∧ s.state.currentTime + s.sliceLeft +
        (s.queue ++ before).length * q ≤ entered w slices p + (n - 1) * q := by
    intro before p after hsplit
    obtain ⟨hmem, harrival⟩ := htaken p (hsplit ▸ List.mem_append_right _ List.mem_cons_self)
    rw [entered_of_fresh (h.fresh p hmem), harrival]
    rw [hsplit] at hlength
    simp only [List.length_append, List.length_cons] at hlength
    refine ⟨le_rfl, wait_le hq h.sliceLeft_le.2 ?_⟩
    rw [List.length_append]
    omega
  constructor
  swap
  · intro p hp
    have hlate := (mem_swept_left.mp hp).2
    rw [← Bool.not_eq_true, harrived, not_le] at hlate
    exact hlate
  refine { h with
    nodup := hnodup
    fresh := fun p hp => h.fresh p (hleft p hp)
    unarrived := fun p hp => h.unarrived p (hleft p hp)
    rotation := ?_
    current := fun p hp => { h.current p hp with }
    waits := fun before p after hsplit => ?_
    owed := fun p hp => h.owed p ?_
    whole := fun p hp => h.whole p (hundone.mem_iff.mp hp)
    cut := fun p hp => h.cut p (mt hundone.mem_iff.mpr hp) }
  · have hnew : (swept s.state.hasArrived s.unqueued).2.Nodup :=
      (List.nodup_append.mp (List.nodup_append.mp (List.nodup_append.mp hnodup).1).2.1).2.1
    have hold := h.nodup
    unfold undone at hold
    refine h.rotation.joins hnew fun p hp => ?_
    obtain ⟨hmem, -⟩ := htaken p hp
    have hdisjoint := (List.nodup_append.mp hold).2.2
    have hcurrent : p ∉ s.currentProcess := fun hrun =>
      hdisjoint p (List.mem_append_left _ (Option.mem_toList.mpr hrun)) p hmem rfl
    refine ⟨hcurrent, fun hqueue => hdisjoint p (List.mem_append_right _ hqueue) p hmem rfl, ?_⟩
    rintro hturn
    rcases List.mem_append.mp hturn with hturn | hturn
    · obtain ⟨d, hd, rfl⟩ := List.mem_map.mp hturn
      exact h.fresh _ hmem d hd rfl
    · exact hcurrent (Option.mem_toList.mp hturn)
  · rcases List.append_eq_append_iff.mp hsplit with ⟨more, rfl, htail⟩ | ⟨more, hqueue, htail⟩
    · exact hjoin more p after htail
    · cases more with
      | nil =>
        rw [List.append_nil] at hqueue
        have hfirst := hjoin [] p after htail.symm
        rwa [List.append_nil, hqueue] at hfirst
      | cons y more =>
        obtain ⟨rfl, -⟩ := List.cons.inj htail
        exact h.waits before p more hqueue
  · rcases List.mem_append.mp hp with hp | hp
    · rcases List.mem_append.mp hp with hp | hp
      · exact List.mem_append_left _ hp
      · exact List.mem_append_right _ (htaken p hp).1
    · exact List.mem_append_right _ (hleft p hp)

def Going (s : Rr n) : Prop :=
  ∀ p ∈ s.currentProcess, 1 ≤ s.currentQuantumLeft ∧ 1 ≤ (s.state.processes p).remainingTime

theorem startSlice_field {γ : Type*} (field : Process → γ)
    (hfield : ∀ (r : Process) (t : Int), field { r with startTime := t } = field r) (s : Rr n)
    (p r : Fin n) : field ((s.startSlice q p).state.processes r) = field (s.state.processes r) := by
  unfold startSlice
  dsimp only
  split_ifs
  · exact Table.modify_field field s.state.processes p _ (hfield _ _) r
  · rfl

theorem Sliced.begin (h : Sliced w q slices s) (hq : 1 ≤ q) {queue : List (Fin n)}
    (hrun : s.currentProcess = none) (hqueue : s.queue = p :: queue) :
    Sliced w q slices ({ s with queue, currentProcess := some p }.startSlice q p) ∧
      Going ({ s with queue, currentProcess := some p }.startSlice q p) := by
  have hundone : ({ s with queue, currentProcess := some p }.startSlice q p).undone = s.undone := by
    rw [undone, undone, hrun, hqueue]
    rfl
  have hleft : s.sliceLeft = 0 := by
    rw [sliceLeft, hrun]
    rfl
  have hremaining := startSlice_field (q := q) Process.remainingTime (fun _ _ => rfl)
    { s with queue, currentProcess := some p } p
  have howed := h.owed p (by rw [hqueue]; simp)
  obtain ⟨henter, hwait⟩ := h.waits [] p queue hqueue
  rw [hleft] at hwait
  constructor
  swap
  · intro r hr
    obtain rfl := Option.some.inj hr
    rw [hremaining]
    exact ⟨hq, howed⟩
  refine {
    record := fun r => ?_, nodup := ?_, fresh := h.fresh, unarrived := h.unarrived
    rotation := ?_, gantt := h.gantt, turns := h.turns, frontier_le := h.frontier_le
    current := fun r hr => ?_, waits := fun before r after hsplit => ?_, account := fun r => ?_
    owed := fun r hr => ?_, whole := ?_, cut := ?_ }
  · rw [startSlice_field Process.pid fun _ _ => rfl, startSlice_field Process.arrivalTime fun _ _ => rfl]
    exact h.record r
  · rw [hundone]
    exact h.nodup
  · have hrotation := h.rotation.begin hqueue
    rw [hrun, Option.toList_none, List.append_nil] at hrotation
    exact hrotation
  · obtain rfl := Option.some.inj hr
    refine ⟨(h.record p).1, rfl, h.frontier_le, henter, ?_, by show 0 ≤ q; omega, le_rfl, ?_⟩
    · rw [add_zero, List.length_nil, Nat.cast_zero, zero_mul, add_zero] at hwait
      exact hwait
    · rw [hremaining]
      exact Int.one_nonneg.trans howed
  · have hsplit : queue = before ++ r :: after := hsplit
    obtain ⟨henter', hwait'⟩ := h.waits (p :: before) r after (by rw [hqueue, hsplit]; rfl)
    rw [hleft, List.length_cons, Nat.cast_succ, add_mul, one_mul] at hwait'
    refine ⟨henter', ?_⟩
    show s.state.currentTime + q + before.length * q ≤ _
    omega
  · have haccount := h.account r
    rw [hremaining]
    simp only [elapsed, hrun, reduceCtorEq, if_false] at haccount
    show _ + _ + (if some p = some r then q - q else 0) = _
    rw [sub_self, ite_self]
    exact haccount
  · rw [hremaining]
    exact h.owed r (by rw [hqueue]; exact List.mem_cons_of_mem p hr)
  · rw [hundone]
    exact h.whole
  · rw [hundone]
    exact h.cut

theorem Sliced.tick (h : Sliced w q slices s) (hrun : s.currentProcess = some p) (hgoing : s.Going)
    (hlate : ∀ p ∈ s.unqueued, s.state.currentTime < w.arrivalTime p) :
    Sliced w q slices (s.tick p) ∧ (s.tick p).currentQuantumLeft < q := by
  obtain ⟨hquantum, howed⟩ := hgoing p hrun
  have hslice := h.current p hrun
  have hself : ((s.tick p).state.processes p).remainingTime =
      (s.state.processes p).remainingTime - 1 := s.state.tick_remainingTime p
  have hother : ∀ r ≠ p, (s.tick p).state.processes r = s.state.processes r := fun r hr =>
    SchedulerState.tick_of_ne hr s.state
  have hnew : ∀ r ∈ s.queue ++ s.unqueued, r ≠ p := by
    have hnodup := h.nodup
    rw [undone, hrun, Option.toList_some, List.append_assoc, List.singleton_append,
      List.nodup_cons] at hnodup
    exact fun r hr => ne_of_mem_of_not_mem hr hnodup.1
  have hnow : (s.tick p).state.currentTime = s.state.currentTime + 1 := rfl
  have hleft : (s.tick p).currentQuantumLeft = s.currentQuantumLeft - 1 := rfl
  constructor
  swap
  · have hle := hslice.left_le
    omega
  refine {
    record := fun r => ?_, nodup := h.nodup, fresh := h.fresh, unarrived := hlate
    rotation := h.rotation, gantt := h.gantt, turns := h.turns
    frontier_le := h.frontier_le.trans (Int.le_add_one le_rfl)
    current := fun r hr => ?_, waits := fun before r after hsplit => ?_, account := fun r => ?_
    owed := fun r hr => ?_, whole := h.whole, cut := h.cut }
  · refine ⟨?_, ?_⟩
    · exact (s.state.tick_field Process.pid (fun _ _ => rfl) p r).trans (h.record r).1
    · exact (s.state.tick_field Process.arrivalTime (fun _ _ => rfl) p r).trans (h.record r).2
  · obtain rfl := Option.some.inj (hrun.symm.trans hr)
    have hstart := hslice.start
    have hle := hslice.left_le
    refine { hslice with start := ?_, left_nonneg := ?_, left_le := ?_, owed := ?_ }
    · show s.ganttEntry.start + q = s.state.currentTime + 1 + (s.currentQuantumLeft - 1)
      omega
    · omega
    · omega
    · omega
  · obtain ⟨henter, hwait⟩ := h.waits before r after hsplit
    simp only [sliceLeft, hrun, Option.isSome_some, if_true] at hwait
    refine ⟨henter.trans (Int.le_add_one le_rfl), ?_⟩
    show s.state.currentTime + 1 + (if s.currentProcess.isSome then s.currentQuantumLeft - 1 else 0) +
      before.length * q ≤ _
    rw [hrun, Option.isSome_some, if_pos rfl]
    omega
  · have haccount := h.account r
    have helapsed : (s.tick p).elapsed q r =
        if s.currentProcess = some r then q - (s.currentQuantumLeft - 1) else 0 := rfl
    rw [helapsed]
    unfold elapsed at haccount
    rcases eq_or_ne r p with rfl | hr
    · rw [if_pos hrun] at haccount ⊢
      omega
    · rw [hother r hr]
      have hne : ¬ s.currentProcess = some r := fun heq =>
        hr (Option.some.inj (heq.symm.trans hrun))
      rw [if_neg hne] at haccount ⊢
      exact haccount
  · rw [hother r (hnew r hr)]
    exact h.owed r hr

def lastSlice (s : Rr n) (p : Fin n) : Segment (Fin n) :=
  ⟨p, s.ganttEntry.start, s.state.currentTime - s.ganttEntry.start⟩

theorem lastSlice_stop (s : Rr n) (p : Fin n) : (s.lastSlice p).stop = s.state.currentTime := by
  show s.ganttEntry.start + (s.state.currentTime - s.ganttEntry.start) = _
  omega

theorem Sliced.lastSlice_length (h : Sliced w q slices s) (hrun : s.currentProcess = some p) :
    (s.lastSlice p).length = q - s.currentQuantumLeft := by
  have hstart := (h.current p hrun).start
  show s.state.currentTime - s.ganttEntry.start = _
  omega

/-- With the end of its slice the current process leaves the CPU, to the end of the queue or for
good. -/
theorem Sliced.endSlice (h : Sliced w q slices s) (hrun : s.currentProcess = some p)
    (hpos : s.currentQuantumLeft < q) {queue : List (Fin n)} (hq : 1 ≤ q)
    (hs : s' = { s with queue }.endSlice)
    (hqueue : queue = s.queue ∧ (s.state.processes p).remainingTime = 0 ∨
      queue = s.queue ++ [p] ∧ s.currentQuantumLeft = 0 ∧ 1 ≤ (s.state.processes p).remainingTime) :
    Sliced w q (slices ++ [s.lastSlice p]) s' := by
  have hslice := h.current p hrun
  have hlength := h.lastSlice_length hrun
  have hstop := lastSlice_stop s p
  have hle := hslice.left_le
  have hnonneg := hslice.left_nonneg
  have hnodup := h.nodup
  have hall := h.length_le
  rw [undone, hrun, Option.toList_some, List.append_assoc, List.singleton_append] at hnodup hall
  rw [List.length_cons, List.length_append] at hall
  obtain ⟨hnew, hnodup⟩ := List.nodup_cons.mp hnodup
  have hne : ∀ r ∈ s.queue ++ s.unqueued, p ≠ r := fun r hr => (ne_of_mem_of_not_mem hr hnew).symm
  have hown : ∀ r, p ≠ r → own (slices ++ [s.lastSlice p]) r = own slices r := fun r hr =>
    own_snoc_of_ne (d := s.lastSlice p) hr slices
  have hentered : ∀ r, p ≠ r → entered w (slices ++ [s.lastSlice p]) r = entered w slices r :=
    fun r hr => entered_snoc_of_ne (d := s.lastSlice p) hr
  have hwhole : ∀ d ∈ own slices p, d.length = q := h.whole p (by rw [undone, hrun]; simp)
  have hmem : ∀ r, r ∈ queue → r ∈ s.queue ∨ r = p := by
    rintro r hr
    rcases hqueue with ⟨rfl, -⟩ | ⟨rfl, -⟩
    · exact .inl hr
    · exact (List.mem_append.mp hr).imp_right List.mem_singleton.mp
  subst hs
  refine {
    record := h.record, nodup := ?_, fresh := fun r hr d hd => ?_, unarrived := h.unarrived
    rotation := ?_, gantt := ?_
    turns := eachTurn_concat.mpr ⟨h.turns, hslice.frontier_le, hslice.entered_le, hslice.le,
      by omega, by omega⟩
    frontier_le := by rw [frontier_snoc, hstop]; exact le_rfl
    current := nofun, waits := fun before r after hsplit => ?_, account := fun r => ?_
    owed := fun r hr => ?_, whole := fun r hr => ?_, cut := fun r hr => ?_ }
  · show (queue ++ s.unqueued).Nodup
    rcases hqueue with ⟨rfl, -⟩ | ⟨rfl, -⟩
    · exact hnodup
    · rw [List.append_assoc, List.singleton_append]
      exact List.perm_middle.nodup_iff.mpr (List.nodup_cons.mpr ⟨hnew, hnodup⟩)
  · rcases List.mem_append.mp hd with hd | hd
    · exact h.fresh r hr d hd
    · rw [List.mem_singleton.mp hd]
      exact hne r (List.mem_append_right _ hr)
  · have hrotation := h.rotation
    rw [hrun, Option.toList_some] at hrotation
    have hturns : (slices ++ [s.lastSlice p]).map Segment.process ++ (none : Option (Fin n)).toList =
        slices.map Segment.process ++ [p] := by
      rw [List.map_append, Option.toList_none, List.append_nil]
      rfl
    show Rotation.Inv ⟨queue, none, _ ++ (none : Option (Fin n)).toList⟩
    rw [hturns]
    rcases hqueue with ⟨rfl, -⟩ | ⟨rfl, -⟩
    · exact hrotation.leave
    · exact hrotation.yield rfl
  · have hentry : sliceEntry w (s.lastSlice p) =
        { s.ganttEntry with stop := s.state.currentTime } := by
      rw [sliceEntry, hstop]
      show GanttEntry.mk (w.processes p).pid _ _ = _
      rw [← hslice.name]
      rfl
    show s.state.gantt ++ [{ s.ganttEntry with stop := s.state.currentTime }] = _
    rw [List.map_append, ← h.gantt, List.map_singleton, hentry]
  · have hsplit : queue = before ++ r :: after := hsplit
    show _ ≤ s.state.currentTime ∧ s.state.currentTime + 0 + before.length * q ≤ _
    rcases eq_or_ne p r with rfl | hr
    · -- the process that has been put back stands behind all others
      rw [show entered w (slices ++ [s.lastSlice p]) p = s.state.currentTime from
        (entered_snoc_self w slices (s.lastSlice p)).trans hstop]
      refine ⟨le_rfl, wait_le (k := 0) hq (by simp) ?_⟩
      have hcount := congrArg List.length hsplit
      rw [List.length_append, List.length_cons] at hcount
      rcases hqueue with ⟨rfl, -⟩ | ⟨rfl, -⟩
      · omega
      · rw [List.length_append, List.length_singleton] at hcount
        omega
    · rw [hentered r hr]
      obtain ⟨after', hold⟩ : ∃ after', s.queue = before ++ r :: after' := by
        rcases hqueue with ⟨rfl, -⟩ | ⟨rfl, -⟩
        · exact ⟨after, hsplit⟩
        · rcases List.eq_nil_or_concat after with rfl | ⟨after', z, rfl⟩
          · exact absurd (List.cons.inj (List.append_inj' hsplit rfl).2).1 hr
          · rw [List.concat_eq_append, ← List.cons_append, ← List.append_assoc] at hsplit
            exact ⟨after', (List.append_inj' hsplit rfl).1⟩
      obtain ⟨henter, hwait⟩ := h.waits before r after' hold
      have hleft := h.sliceLeft_le.1
      exact ⟨henter, by omega⟩
  · have haccount := h.account r
    have helapsed : ({ s with queue := queue }.endSlice : Rr n).elapsed q r = 0 := rfl
    rw [helapsed, served_snoc, hlength, add_zero]
    unfold elapsed at haccount
    show (s.state.processes r).remainingTime + (served slices r + if p = r then _ else 0) = _
    by_cases hr : p = r
    · subst hr
      rw [if_pos hrun] at haccount
      rw [if_pos rfl]
      omega
    · rw [if_neg fun heq => hr (Option.some.inj (hrun.symm.trans heq))] at haccount
      rw [if_neg hr]
      omega
  · rcases List.mem_append.mp hr with hr | hr
    · rcases hmem r hr with hr' | rfl
      · exact h.owed r (List.mem_append_left _ hr')
      · rcases hqueue with ⟨rfl, -⟩ | ⟨-, -, howed⟩
        · exact h.owed r (List.mem_append_left _ hr)
        · exact howed
    · exact h.owed r (List.mem_append_right _ hr)
  · have hr : r ∈ queue ++ s.unqueued := hr
    rcases eq_or_ne p r with rfl | hne'
    · rcases hqueue with ⟨rfl, -⟩ | ⟨rfl, hzero, -⟩
      · exact absurd hr hnew
      · rw [show own (slices ++ [s.lastSlice p]) p = own slices p ++ [s.lastSlice p] from
          own_snoc_self slices (s.lastSlice p)]
        refine List.forall_mem_append.mpr ⟨hwhole, List.forall_mem_singleton.mpr ?_⟩
        rw [hlength, hzero, sub_zero]
    · rw [hown r hne']
      refine h.whole r ?_
      rw [undone, List.append_assoc]
      refine List.mem_append_right _ ?_
      rcases List.mem_append.mp hr with hr | hr
      · exact List.mem_append_left _ ((hmem r hr).resolve_right hne'.symm)
      · exact List.mem_append_right _ hr
  · have hr : r ∉ queue ++ s.unqueued := hr
    rcases eq_or_ne p r with rfl | hne'
    · rcases hqueue with ⟨rfl, hzero⟩ | ⟨rfl, -⟩
      · have haccount := h.account p
        rw [elapsed, if_pos hrun, hzero, zero_add, served_eq_sum_own] at haccount
        rw [show own (slices ++ [s.lastSlice p]) p = own slices p ++ [s.lastSlice p] from
          own_snoc_self slices (s.lastSlice p), List.map_append, List.map_singleton]
        refine ⟨_, _, rfl, List.forall_mem_map.mpr hwhole, by omega, by omega, ?_⟩
        rw [List.sum_append, List.sum_singleton, hlength]
        exact haccount
      · exact absurd (by simp) hr
    · rw [hown r hne']
      refine h.cut r ?_
      rw [undone, hrun, List.append_assoc]
      intro hmem'
      rcases List.mem_append.mp hmem' with hcur | hrest
      · exact hne' (List.mem_singleton.mp hcur).symm
      · rcases hqueue with ⟨rfl, -⟩ | ⟨rfl, -⟩
        · exact hr hrest
        · refine hr ?_
          rw [List.append_assoc]
          exact (List.mem_append.mp hrest).elim (fun hm => List.mem_append_left _ hm)
            fun hm => List.mem_append_right _ (List.mem_append_right _ hm)

theorem Sliced.stamp (h : Sliced w q slices s) (p : Fin n) (count : Nat) :
    Sliced w q slices { s with state := s.state.finish p, completeCounter := count } := by
  have hleft : ∀ r, ((s.state.finish p).processes r).remainingTime =
      (s.state.processes r).remainingTime := s.state.finish_field Process.remainingTime (fun _ _ => rfl) p
  refine { h with
    record := fun r => ⟨?_, ?_⟩, current := fun r hr => ?_, waits := h.waits, account := fun r => ?_
    owed := fun r hr => ?_, nodup := h.nodup, whole := h.whole, cut := h.cut }
  · exact (s.state.finish_field Process.pid (fun _ _ => rfl) p r).trans (h.record r).1
  · exact (s.state.finish_field Process.arrivalTime (fun _ _ => rfl) p r).trans (h.record r).2
  · exact { h.current r hr with
      owed := (h.current r hr).owed.trans_eq (hleft r).symm }
  · rw [hleft]
    exact h.account r
  · rw [hleft]
    exact h.owed r hr

theorem Sliced.completeOrPreempt (h : Sliced w q slices s) (hq : 1 ≤ q)
    (hrun : s.currentProcess = some p) (hpos : s.currentQuantumLeft < q) :
    ∃ slices', Sliced w q slices' (s.completeOrPreempt p) ∧ Going (s.completeOrPreempt p) := by
  have hslice := h.current p hrun
  have howed := hslice.owed
  have hleft := hslice.left_nonneg
  unfold Rr.completeOrPreempt
  split_ifs with hzero hquantum
  · have hstamped := h.stamp p (s.completeCounter + 1)
    exact ⟨_, hstamped.endSlice hrun hpos hq rfl (.inl ⟨rfl,
      (s.state.finish_field Process.remainingTime (fun _ _ => rfl) p p).trans hzero⟩), nofun⟩
  · exact ⟨_, h.endSlice hrun hpos hq rfl (.inr ⟨rfl, hquantum, by omega⟩), nofun⟩
  · refine ⟨_, h, fun r hr => ?_⟩
    obtain rfl := Option.some.inj (hrun.symm.trans hr)
    omega

theorem Sliced.idleTick (h : Sliced w q slices s) (hrun : s.currentProcess = none)
    (hqueue : s.queue = []) (hlate : ∀ p ∈ s.unqueued, s.state.currentTime < w.arrivalTime p) :
    Sliced w q slices s.idleTick :=
  { h with
    unarrived := hlate
    frontier_le := h.frontier_le.trans (Int.le_add_one le_rfl)
    current := fun p hp => absurd (hrun.symm.trans hp) (Option.some_ne_none p).symm
    waits := fun before p after hsplit => by
      rw [show s.idleTick.queue = [] from hqueue] at hsplit
      exact absurd hsplit (by simp)
    nodup := h.nodup, whole := h.whole, cut := h.cut, account := h.account, owed := h.owed }

theorem Sliced.round (h : Sliced w q slices s) (hq : 1 ≤ q) (hgoing : s.Going)
    (hs : s.round q = some s') : ∃ slices', Sliced w q slices' s' ∧ s'.Going := by
  unfold Rr.round at hs
  split_ifs at hs
  obtain ⟨hscanned, hlate⟩ := h.scanned hq
  have hnow : s.checkArrivals.state = s.state := by rw [checkArrivals_eq]
  have hcurrent : s.checkArrivals.currentProcess = s.currentProcess := by rw [checkArrivals_eq]
  have hgoing' : s.checkArrivals.Going := by
    rw [checkArrivals_eq]
    exact hgoing
  rw [← hnow] at hlate
  -- what the unit makes of the state in which its process has been picked
  have hunit : ∀ {s₁ : Rr n} {p : Fin n}, Sliced w q slices s₁ → s₁.currentProcess = some p →
      s₁.Going → s₁.unqueued = s.checkArrivals.unqueued → s₁.state.currentTime =
        s.checkArrivals.state.currentTime →
      ∃ slices', Sliced w q slices' ((s₁.tick p).checkArrivals.completeOrPreempt p) ∧
        Going ((s₁.tick p).checkArrivals.completeOrPreempt p) := by
    intro s₁ p hs₁ hrun hgoing₁ hunqueued htime
    obtain ⟨hticked, hpos⟩ := hs₁.tick hrun hgoing₁ (by rwa [hunqueued, htime])
    have hafter := (hticked.scanned hq).1
    rw [checkArrivals_eq] at hafter ⊢
    exact hafter.completeOrPreempt hq hrun hpos
  split at hs
  · rename_i hpick
    cases hs
    obtain ⟨hrun, hqueue⟩ := pick_eq_none hpick
    exact ⟨slices, hscanned.idleTick hrun hqueue hlate, hgoing'⟩
  · rename_i p s₁ hpick
    cases hs
    rcases pick_eq_some hpick with ⟨hrun, rfl⟩ | ⟨hrun, queue, hqueue, rfl⟩
    · exact hunit hscanned hrun hgoing' rfl rfl
    · obtain ⟨hbegun, hgoing₁⟩ := hscanned.begin hq hrun hqueue
      exact hunit hbegun rfl hgoing₁ rfl rfl

theorem sliced_start (hw : w.Nonneg) (hburst : ∀ p, 1 ≤ w.burstTime p) (q : Int) :
    Sliced w q [] (start w) where
  record _ := ⟨rfl, rfl⟩
  nodup := List.nodup_finRange n
  fresh := nofun
  unarrived p _ := hw.arrival p
  rotation := ⟨List.nodup_nil, nofun, fun before p after hsplit => by simp [start] at hsplit,
    fun pre p mid post hturn => by simp [start] at hturn⟩
  gantt := rfl
  turns := eachTurn_nil
  frontier_le := le_rfl
  current := nofun
  waits before p after hsplit := by simp [start] at hsplit
  account p := by
    show w.burstTime p + served [] p + 0 = _
    rw [served_nil, add_zero, add_zero]
  owed p _ := hburst p
  whole := nofun
  cut p hp := absurd (List.mem_finRange p) hp

theorem reaches_sliced (hw : w.Nonneg) (hburst : ∀ p, 1 ≤ w.burstTime p) (hq : 1 ≤ q)
    (h : Loop.Reaches (round q) (start w) s) : ∃ slices, Sliced w q slices s ∧ s.Going :=
  h.invariant (fun s => ∃ slices, Sliced w q slices s ∧ s.Going)
    (fun _ _ hs ⟨_, hsliced, hgoing⟩ => hsliced.round hq hgoing hs)
    ⟨[], sliced_start hw hburst q, nofun⟩

end Rr

end OsLab.Schedsim
