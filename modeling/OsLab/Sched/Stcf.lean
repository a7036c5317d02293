import OsLab.Foundation.Turns
import OsLab.Sched.IntTimes

/-! Shortest time to completion first. At every dispatch STCF takes the process with the least
remaining time among those that have arrived and been queued. The segment that follows reaches
up to the next queued arrival, except when that arrival is due at this very moment: then
`schedule_stcf` sees no time until the arrival and lets the process run to its end, and arrivals
that should have preempted it wait. -/

namespace OsLab.Sched

variable {n : Nat} {w : Workload n}

namespace SchedulerState

variable {pol : Policy}

/-- What is left of the burst of `q` at time `u`. -/
def unserved (w : Workload n) (s : SchedulerState pol n) (q : Fin n) (u : Int) : Int :=
  w.burstTime q - servedBefore s.log q u

/-- In every time unit of a segment, no other process that has arrived and is not finished has
less left than the one being served. -/
def ShortestFirst (w : Workload n) (s : SchedulerState pol n) : Prop :=
  ∀ d ∈ s.dispatches, ∀ u, d.time ≤ u → u < d.stop → ∀ q, q ≠ d.process → w.arrivalTime q ≤ u →
    0 < s.unserved w q u → d.record.remainingTime - (u - d.time) ≤ s.unserved w q u

end SchedulerState

/-- If an arrival is due at the moment of the dispatch, no process that will arrive before the
dispatched one has finished asks for less than will then be left of it. -/
def Dispatch.TieSafe (w : Workload n) (d : Dispatch n) : Prop :=
  ∀ e, peekNextArrival d.events = some e → e.time = d.time →
    ∀ e' ∈ d.events.items, ∀ q, e'.type = .arrival q → e'.time < d.time + d.record.remainingTime →
      d.record.remainingTime - (e'.time - d.time) ≤ w.burstTime q

/-- What STCF knows when it makes the dispatch `d` after those of `pre`. -/
structure ChosenAt (w : Workload n) (pre : List (Dispatch n)) (d : Dispatch n) : Prop where
  runTime : d.runTime = (scheduleStcf d.events d.time d.record).2
  ordered : TimeOrdered d.events.items
  future : ∀ e ∈ d.events.items, d.time ≤ e.time
  arrival : ∀ e ∈ d.events.items, ∀ q, e.type = .arrival q → e.time = w.arrivalTime q
  fresh : ∀ q ∈ arrivals d.events.items, served (pre.map Dispatch.segment) q = 0 ∧ q ≠ d.process
  shortest : ∀ q, q ∉ arrivals d.events.items → q ≠ d.process →
    w.burstTime q - served (pre.map Dispatch.segment) q = 0 ∨
      d.record.remainingTime ≤ w.burstTime q - served (pre.map Dispatch.segment) q

theorem scheduleStcf_runTime_of_due {events : EventQueue n} {e : Event n} {now : Int}
    {r : Process} (he : peekNextArrival events = some e) (hnow : e.time = now) :
    (scheduleStcf events now r).2 = r.remainingTime := by
  obtain h | ⟨e', he', hlt, _⟩ := scheduleStcf_runTime events now r
  · exact h
  · obtain rfl := Option.some.inj (he.symm.trans he')
    omega

theorem scheduleStcf_runTime_le {events : EventQueue n} {e : Event n} {now : Int} {r : Process}
    (he : peekNextArrival events = some e) (hnow : now < e.time) :
    (scheduleStcf events now r).2 ≤ e.time - now := by
  unfold scheduleStcf
  rw [he]
  dsimp only
  rw [if_pos hnow]
  split_ifs <;> omega

theorem ChosenAt.le_unserved {pre : List (Dispatch n)} {d : Dispatch n} {q : Fin n} {u : Int}
    (hchosen : ChosenAt w pre d) (htie : d.TieSafe w) (hlo : d.time ≤ u)
    (hhi : u < d.stop) (hq : q ≠ d.process) (harrival : w.arrivalTime q ≤ u)
    (hleft : 0 < w.burstTime q - served (pre.map Dispatch.segment) q) :
    d.record.remainingTime - (u - d.time) ≤
      w.burstTime q - served (pre.map Dispatch.segment) q := by
  by_cases hpending : q ∈ arrivals d.events.items
  · obtain ⟨e', he', htype⟩ := mem_arrivals.mp hpending
    have htime := hchosen.arrival e' he' q htype
    have hfuture := hchosen.future e' he'
    have hrun := hchosen.runTime
    rw [(hchosen.fresh q hpending).1]
    unfold Dispatch.stop at hhi
    obtain ⟨e, he⟩ : ∃ e, peekNextArrival d.events = some e := by
      refine Option.ne_none_iff_exists'.mp fun hnone => ?_
      exact peekNextArrival_none hnone he' htype
    obtain ⟨hmem, _⟩ := peekNextArrival_mem he
    have hfirst := peekNextArrival_le hchosen.ordered he he' htype
    rcases (hchosen.future e hmem).eq_or_lt with hdue | hlater
    · rw [scheduleStcf_runTime_of_due he hdue.symm] at hrun
      have := htie e he hdue.symm e' he' q htype (by omega)
      omega
    · -- the segment ends at the next arrival, so `q` has not arrived yet
      have := scheduleStcf_runTime_le (r := d.record) he hlater
      omega
  · have := (hchosen.shortest q hpending hq).resolve_left hleft.ne'
    omega

def AllChosen (w : Workload n) (l : List (Dispatch n)) : Prop :=
  ∀ pre d post, l = pre ++ d :: post → ChosenAt w pre d

theorem AllChosen.snoc {l : List (Dispatch n)} {d : Dispatch n} (h : AllChosen w l)
    (hd : ChosenAt w l d) : AllChosen w (l ++ [d]) := eachTurn_concat.mpr ⟨h, hd⟩

namespace SchedulerState

variable {s s' : SchedulerState .stcf n} {p : Fin n}

/-- The waiting queue is ordered by remaining time, and the running process is before it. -/
structure ShortestRuns (w : Workload n) (s : SchedulerState .stcf n) : Prop where
  sorted : (Policy.members .stcf s.waiting).Pairwise fun a b =>
    (s.processes a).remainingTime ≤ (s.processes b).remainingTime
  least : ∀ p, s.running = some p → ∀ q ∈ Policy.members .stcf s.waiting,
    (s.processes p).remainingTime ≤ (s.processes q).remainingTime
  chosen : AllChosen w s.dispatches

theorem Free.chosenAt {ready : Multiset (Fin n)} (h : Free w s ready) (hp : p ∈ ready)
    (hmin : ∀ q ∈ ready, q ≠ p → (s.processes p).remainingTime ≤ (s.processes q).remainingTime) :
    ChosenAt w s.dispatches ⟨p, s.currentTime, s.runTime p, s.processes p, s.eventQueue⟩ where
  runTime := rfl
  ordered := h.ordered
  future := h.future
  arrival := h.arrival
  fresh q hq := by
    refine ⟨served_eq_zero (h.cpu.pending_fresh q hq).2, ?_⟩
    rintro rfl
    exact h.cpu.notMem_pending_of_ready hp hq
  shortest q hq hqp := by
    have haccounted := h.cpu.accounted q
    by_cases hready : q ∈ ready
    · right
      have := hmin q hready hqp
      simp only [view, log] at *
      omega
    · left
      have hfinished := h.cpu.mem_finished hq hready (by simp [view])
      have hzero := (h.cpu.finished_done q hfinished).1
      simp only [view, log] at *
      omega

theorem Free.dispatch_shortest
    (h : Free w s (p ::ₘ Policy.members .stcf s.waiting)) (arrange : Bool)
    (hsorted : (Policy.members .stcf s.waiting).Pairwise fun a b =>
      (s.processes a).remainingTime ≤ (s.processes b).remainingTime)
    (hmin : ∀ q ∈ Policy.members .stcf s.waiting,
      (s.processes p).remainingTime ≤ (s.processes q).remainingTime)
    (hchosen : AllChosen w s.dispatches) : ShortestRuns w (s.dispatch p arrange) := by
  have hmem : p ∈ p ::ₘ (Policy.members .stcf s.waiting : Multiset (Fin n)) :=
    Multiset.mem_cons_self p _
  have hnot : p ∉ (Policy.members .stcf s.waiting : Multiset (Fin n)) :=
    h.cpu.notMem_of_cons_ready rfl
  have hs := h.scheduled Policy.stcf_valid hmem
  have hsame : ∀ q ∈ Policy.members .stcf s.waiting,
      (s.dispatch p arrange).processes q = s.processes q := fun q hq =>
    Function.update_of_ne (fun hqp : q = p => hnot (Multiset.mem_coe.mpr (hqp ▸ hq))) ..
  have hself : ((s.dispatch p arrange).processes p).remainingTime =
      (s.processes p).remainingTime - s.runTime p := startSegment_remainingTime hs
  refine ⟨?_, fun a ha q hq => ?_, ?_⟩
  · refine hsorted.imp_of_mem fun {a b} ha hb hle => ?_
    rw [hsame a ha, hsame b hb]
    exact hle
  · obtain rfl := Option.some.inj ha
    have hle := hmin q hq
    have hnonneg : 0 ≤ s.runTime p := hs.nonneg
    rw [hsame q hq, hself]
    omega
  · refine hchosen.snoc (h.chosenAt hmem fun q hq hqp => ?_)
    exact hmin q ((Multiset.mem_cons.mp hq).resolve_left hqp)

theorem Free.dispatchNext_shortest {ready : Multiset (Fin n)} (h : Free w s ready)
    (hready : ready = Policy.members .stcf s.waiting) (arrange : Bool)
    (hsorted : (Policy.members .stcf s.waiting).Pairwise fun a b =>
      (s.processes a).remainingTime ≤ (s.processes b).remainingTime)
    (hchosen : AllChosen w s.dispatches) : ShortestRuns w (s.dispatchNext arrange) := by
  obtain ⟨_, heq⟩ | ⟨p, waiting, _, hmem, heq⟩ := s.dispatchNext_cases arrange
  · rw [heq]
    exact ⟨hsorted, fun _ hp => absurd hp.symm (Option.some_ne_none _), hchosen⟩
  · rw [heq]
    rw [hmem] at hsorted hready
    subst hready
    -- the first of the queue is the shortest of the waiting ones
    exact (h.sameTimes (.refl s.processes) s.running waiting).dispatch_shortest arrange
      hsorted.of_cons (fun q hq => List.rel_of_pairwise_cons hsorted hq) hchosen

theorem addWaiting_sorted (hsorted : (Policy.members .stcf s.waiting).Pairwise fun a b =>
      (s.processes a).remainingTime ≤ (s.processes b).remainingTime) (p : Fin n) :
    (Policy.members .stcf (s.addWaiting p).waiting).Pairwise fun a b =>
      (s.processes a).remainingTime ≤ (s.processes b).remainingTime := by
  have : IsTrans (Fin n) fun a b =>
    (s.processes a).remainingTime ≤ (s.processes b).remainingTime := ⟨fun _ _ _ => le_trans⟩
  refine pairwise_insertBefore (fun q _ hq => ?_) (fun q _ hq => ?_) hsorted
  · simpa using hq
  · simp only [Bool.not_eq_true', decide_eq_false_iff_not, not_le] at hq
    exact hq.le

theorem mem_addWaiting {q : Fin n} :
    q ∈ Policy.members .stcf (s.addWaiting p).waiting ↔
      q = p ∨ q ∈ Policy.members .stcf s.waiting := mem_insertBefore

section Round

variable {e : Event n} {q : EventQueue n}

theorem ShortestRuns.round (hc : Coherent w s) (h : ShortestRuns w s)
    (hq : s.eventQueue.items = e :: q.items) (hround : Round s e q s') : ShortestRuns w s' := by
  cases hround with
  | start p he hrun =>
    have hwaiting := hc.idle hrun
    refine (hc.free_arrival hq he hrun).dispatch_shortest _ h.sorted (fun r hr => ?_) h.chosen
    exact absurd (hwaiting ▸ hr) List.not_mem_nil
  | wait p r he hrun hle =>
    refine ⟨addWaiting_sorted (s := s.popped e q) h.sorted p, fun a ha b hb => ?_, h.chosen⟩
    obtain rfl := Option.some.inj (hrun.symm.trans ha)
    rcases mem_addWaiting.mp hb with rfl | hb
    · exact hle rfl
    · exact h.least r hrun b hb
  | preempt p r he hrun hstcf hlt =>
    refine (hc.free_preempted hq he hrun hstcf hlt).1.dispatch_shortest _ ?_ ?_ h.chosen
    · exact addWaiting_sorted (s := { s.popped e q with eventQueue := removeEventForProcess q r })
        h.sorted r
    · -- `p` is shorter than the process it interrupts, which was shorter than those that wait
      intro a ha
      rcases mem_addWaiting.mp ha with rfl | ha
      · exact hlt.le
      · exact hlt.le.trans (h.least r hrun a ha)
  | complete p he hrun hrem =>
    exact (hc.free_completion hq he).1.dispatchNext_shortest rfl _ h.sorted h.chosen
  | expire p he hrun hrem =>
    obtain ⟨hfree, hready, _⟩ := hc.free_quantumExpire hq he
    exact hfree.dispatchNext_shortest hready _ (addWaiting_sorted (s := s.popped e q) h.sorted p)
      h.chosen

end Round

theorem startState_shortestRuns (hw : w.Nonneg) : ShortestRuns w (startState .stcf w) := by
  have h := startState_starting hw .stcf
  refine ⟨?_, ?_, ?_⟩
  · simp [h.waiting]
  · simp [h.waiting]
  · rw [h.dispatches]
    exact eachTurn_nil

theorem Reaches.shortestRuns (hw : w.Nonneg)
    (h : Loop.Reaches loopBody (startState .stcf w) s) : ShortestRuns w s := by
  exact Reaches.induction hw Policy.stcf_valid (by decide) (ShortestRuns w)
    (startState_shortestRuns hw) (fun _ _ _ _ hc _ hq hround hs => hs.round hc hq hround) h

section Segment

variable {pre post : List (Dispatch n)} {d : Dispatch n} {q : Fin n} {u : Int}

theorem Coherent.servedBefore_eq (h : Coherent w s) (hsplit : s.dispatches = pre ++ d :: post)
    (hlo : d.time ≤ u) (hhi : u < d.stop) (hq : q ≠ d.process) :
    servedBefore s.log q u = served (pre.map Dispatch.segment) q := by
  have hpairwise := h.consecutive
  rw [hsplit, List.pairwise_append, List.pairwise_cons] at hpairwise
  obtain ⟨_, ⟨hafter, _⟩, hbefore⟩ := hpairwise
  have hlength : ∀ e ∈ pre, 0 ≤ e.runTime := fun e he =>
    h.runTime_nonneg e (hsplit ▸ List.mem_append_left _ he)
  have hlog : s.log = pre.map Dispatch.segment ++ (d.segment :: post.map Dispatch.segment) := by
    rw [log, hsplit, List.map_append, List.map_cons]
  have hpre : servedBefore (pre.map Dispatch.segment) q u = served (pre.map Dispatch.segment) q := by
    refine servedBefore_eq_served (fun e he => ?_) fun e he _ => ?_
    · obtain ⟨e', he', rfl⟩ := List.mem_map.mp he
      exact hlength e' he'
    · obtain ⟨e', he', rfl⟩ := List.mem_map.mp he
      exact (hbefore e' he' d List.mem_cons_self).trans hlo
  have hrest : servedBefore (d.segment :: post.map Dispatch.segment) q u = 0 := by
    refine servedBefore_eq_zero fun e he hp => ?_
    rcases List.mem_cons.mp he with rfl | he
    · exact absurd hp.symm hq
    · obtain ⟨e', he', rfl⟩ := List.mem_map.mp he
      exact hhi.le.trans (hafter e' he')
  rw [hlog, servedBefore_append, hpre, hrest, add_zero]

theorem Coherent.shortestFirst (hc : Coherent w s) (h : ShortestRuns w s)
    (htie : ∀ d ∈ s.dispatches, d.TieSafe w) : ShortestFirst w s := by
  intro d hd u hlo hhi q hq harrival hleft
  obtain ⟨pre, post, hsplit⟩ := List.append_of_mem hd
  have hserved := hc.servedBefore_eq hsplit hlo hhi hq
  rw [unserved, hserved] at hleft ⊢
  exact (h.chosen pre d post hsplit).le_unserved (htie d hd) hlo hhi hq harrival hleft

theorem Coherent.tieSafe (hburst : ∀ p, 1 ≤ w.burstTime p) (hc : Coherent w s)
    (h : ShortestRuns w s) (hshort : ShortestFirst w s) : ∀ d ∈ s.dispatches, d.TieSafe w := by
  intro d hd e he hdue e' he' q htype hlt
  obtain ⟨pre, post, hsplit⟩ := List.append_of_mem hd
  have hchosen := h.chosen pre d post hsplit
  have htime := hchosen.arrival e' he' q htype
  have hfresh := hchosen.fresh q (mem_arrivals.mpr ⟨e', he', htype⟩)
  have hrun := hchosen.runTime
  rw [scheduleStcf_runTime_of_due he hdue] at hrun
  have hunserved : s.unserved w q e'.time = w.burstTime q := by
    have hzero : servedBefore s.log q e'.time = 0 :=
      hc.cpu.timeline.servedBefore_of_le_arrival htime.le
    rw [unserved, hzero, sub_zero]
  have hpos := hburst q
  have hstop : e'.time < d.stop := by
    unfold Dispatch.stop
    omega
  have hle := hshort d hd e'.time (hchosen.future e' he') hstop q hfresh.2 htime.ge
    (hunserved ▸ hpos)
  rwa [hunserved] at hle

end Segment

end SchedulerState

open SchedulerState

/-- STCF keeps its policy, and its times within `int`, exactly in the runs of a workload that fits
without a dispatch that overlooks an arrival due at the same moment, or one after it, with less to
do. -/
theorem shortestFirst_iff (hw : w.Nonneg) (hburst : ∀ p, 1 ≤ w.burstTime p) {fuel : Nat}
    {s : SchedulerState .stcf n} (hsim : simulateScheduler .stcf w fuel = some s) :
    (RunTimesFit .stcf w ∧ ShortestFirst w s) ↔
      (w.RunFits ∧ ∀ d ∈ s.dispatches, d.TieSafe w) := by
  obtain ⟨t, hreach, hend, rfl⟩ := simulateScheduler_eq_some hsim
  have hc := Reaches.coherent hw Policy.stcf_valid (by decide) hreach
  have h := Reaches.shortestRuns hw hreach
  have hshort : ShortestFirst w t.finish ↔ ShortestFirst w t := by
    rw [hc.finish_eq hend]
    rfl
  have hdispatches : t.finish.dispatches = t.dispatches := by
    rw [hc.finish_eq hend]
    rfl
  rw [hshort, hdispatches]
  exact and_congr (runTimesFit_iff hw Policy.stcf_valid (by decide))
    ⟨hc.tieSafe hburst h, hc.shortestFirst h⟩

theorem shortestFirst_iff_sample :
    ∃ s, simulateScheduler .stcf sampleWorkload 10 = some s ∧
      ((RunTimesFit .stcf sampleWorkload ∧ ShortestFirst sampleWorkload s) ↔
        (sampleWorkload.RunFits ∧ ∀ d ∈ s.dispatches, d.TieSafe sampleWorkload)) := by
  obtain ⟨s, hsim⟩ := Option.isSome_iff_exists.mp
    (show (simulateScheduler .stcf sampleWorkload 10).isSome from by decide +kernel)
  exact ⟨s, hsim, shortestFirst_iff sampleWorkload_nonneg (by decide) hsim⟩

def tieWorkload : Workload 3 where
  pid p := if p = 0 then ['A'] else if p = 1 then ['B'] else ['C']
  arrivalTime p := if p = 2 then 2 else 0
  burstTime p := if p = 0 then 5 else if p = 1 then 10 else 1

/-- `A` is dispatched while the arrival of `B` is due, so it runs to its end and `C` waits. -/
theorem stcf_not_shortestFirst :
    tieWorkload.Nonneg ∧ (∀ p, 1 ≤ tieWorkload.burstTime p) ∧
      ∃ s, simulateScheduler .stcf tieWorkload 10 = some s ∧ ¬ ShortestFirst tieWorkload s := by
  refine ⟨⟨by decide, by decide⟩, by decide, ?_⟩
  have hrun : ∃ s ∈ simulateScheduler .stcf tieWorkload 10,
      (∃ d ∈ s.dispatches, d.process = 0 ∧ d.time = 0 ∧ d.runTime = 5 ∧
        d.record.remainingTime = 5) ∧ s.unserved tieWorkload 2 2 = 1 := by decide +kernel
  obtain ⟨s, hsim, ⟨d, hd, hprocess, htime, hrunTime, hrem⟩, hunserved⟩ := hrun
  refine ⟨s, hsim, fun h => ?_⟩
  have hle := h d hd 2 (by omega) (by unfold Dispatch.stop; omega) 2 (by simp [hprocess]) (by decide)
    (by omega)
  omega

end OsLab.Sched
