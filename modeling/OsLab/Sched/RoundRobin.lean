import OsLab.Foundation.Forecast
import OsLab.Foundation.Turns
import OsLab.Sched.Accounting
import OsLab.Sched.Rounds

/-! Fairness of round robin. The three lists of the queue, with the running process between them,
tell who is dispatched next: first the active list, then the round, then the active list again,
since all who run go to the round, and the pending ones last. -/

namespace OsLab.Sched

open Forecast (turnsBefore turnsBefore_append turnsBefore_of_notMem)

variable {n : Nat}

section Queue

variable {q q' : RRProcessQueue n} {p r : Fin n}

/-- The turns to come while `running` has the CPU. -/
def RRProcessQueue.forecast (q : RRProcessQueue n) (running : Option (Fin n)) : List (Fin n) :=
  q.active ++ q.round ++ running.toList ++ q.active ++ q.pending

theorem RRProcessQueue.forecast_perm (q : RRProcessQueue n) (running : Option (Fin n)) :
    (q.forecast running).Perm (running.toList ++ q.members ++ q.active) := by
  apply List.perm_iff_count.mpr
  intro p
  simp only [forecast, members, List.count_append]
  omega

theorem RRProcessQueue.forecast_length (q : RRProcessQueue n) (running : Option (Fin n)) :
    (q.forecast running).length = running.toList.length + q.members.length + q.active.length := by
  rw [(q.forecast_perm running).length_eq, List.length_append, List.length_append]

theorem RRProcessQueue.active_length_le (q : RRProcessQueue n) :
    q.active.length ≤ q.members.length := by
  rw [members, List.length_append, List.length_append]
  omega

theorem RRProcessQueue.mem_forecast {running : Option (Fin n)} :
    p ∈ q.forecast running ↔ running = some p ∨ p ∈ q.members := by
  simp only [forecast, members, List.mem_append, Option.mem_toList]
  tauto

theorem rrEnqueue_forecast (q : RRProcessQueue n) (p : Fin n) (running : Option (Fin n)) :
    (rrEnqueue q p).forecast running = q.forecast running ++ [p] := by
  simp only [RRProcessQueue.forecast, rrEnqueue, List.append_assoc]

theorem rrRequeue_forecast (q : RRProcessQueue n) (r : Fin n) :
    (rrRequeue q r).forecast none = q.forecast (some r) := by
  simp only [RRProcessQueue.forecast, rrRequeue, Option.toList_none, Option.toList_some,
    List.append_nil, List.append_assoc]

theorem RRProcessQueue.forecast_filter (hr : r ∉ q.members) :
    (q.forecast (some r)).filter (· ≠ r) = q.forecast none := by
  have hall : ∀ l : List (Fin n), (∀ x ∈ l, x ∈ q.members) → l.filter (· ≠ r) = l := by
    intro l hl
    apply List.filter_eq_self.mpr
    intro x hx
    exact decide_eq_true fun heq => hr (heq ▸ hl x hx)
  simp only [forecast, List.filter_append, Option.toList_some, Option.toList_none, members] at hall ⊢
  rw [hall q.active (by simp +contextual), hall q.round (by simp +contextual),
    hall q.pending (by simp +contextual)]
  simp

theorem rrDequeue_forecast (h : rrDequeue q = some (p, q')) :
    ∃ rest, q.forecast none = p :: rest ∧
      (q'.forecast (some p) = rest ∨ q'.forecast (some p) = rest ++ p :: rest) := by
  obtain ⟨hhead, hround, hpending⟩ := rrDequeue_eq_some h
  by_cases hactive : q.active = []
  · -- the round that is over and the pending processes make the next batch
    have hrefill : rrRefill q = rrAppendPendingToActive
        { active := q.round, round := [], pending := q.pending, size := q.size,
          size_eq := by simp [q.size_eq, hactive] } := dif_pos hactive
    rw [hrefill] at hhead hround hpending
    have hbatch : q.round ++ q.pending = p :: q'.active := hhead
    have hround : q'.round = [] := hround
    have hpending : q'.pending = [] := hpending
    refine ⟨q'.active, ?_, .inr ?_⟩
    · simp [RRProcessQueue.forecast, hactive, hbatch]
    · simp [RRProcessQueue.forecast, hround, hpending]
  · have hrefill : rrRefill q = q := dif_neg hactive
    rw [hrefill] at hhead hround hpending
    refine ⟨q'.active ++ q.round ++ p :: q'.active ++ q.pending, ?_, .inl ?_⟩
    · simp [RRProcessQueue.forecast, hhead]
    · simp [RRProcessQueue.forecast, hround, hpending]

end Queue

namespace SchedulerState

variable {quantum : Int} {w : Workload n} {s s' : SchedulerState (.rr quantum) n}
variable {e : Event n} {q : EventQueue n} {p r : Fin n}

def forecast (s : SchedulerState (.rr quantum) n) : Forecast (Fin n) :=
  ⟨RRProcessQueue.forecast s.waiting s.running, s.dispatched⟩

def freeForecast (s : SchedulerState (.rr quantum) n) : Forecast (Fin n) :=
  ⟨RRProcessQueue.forecast s.waiting none, s.dispatched⟩

theorem dispatchNext_step (s : SchedulerState (.rr quantum) n) (arrange : Bool) :
    Forecast.Steps s.freeForecast (s.dispatchNext arrange).forecast := by
  rcases s.dispatchNext_cases arrange with ⟨_, heq⟩ | ⟨p, waiting, hd, _, heq⟩
  · rw [heq]
    exact .refl
  · obtain ⟨rest, hnext, hrest⟩ := rrDequeue_forecast hd
    rw [heq]
    have hturn := Forecast.Step.turn s.freeForecast p rest _ hnext hrest
    have hdispatched := dispatch_dispatched { s with waiting := waiting } p arrange
    refine .single ?_
    unfold forecast
    rw [hdispatched]
    exact hturn

theorem Coherent.join (hc : Coherent w s) (hq : s.eventQueue.items = e :: q.items)
    (he : e.type = .arrival p) : p ∉ s.forecast.upcoming ∧ p ∉ s.forecast.taken := by
  have hpending : p ∈ arrivals s.eventQueue.items :=
    mem_arrivals.mpr ⟨e, hq ▸ List.mem_cons_self, he⟩
  constructor
  · intro hmem
    rcases RRProcessQueue.mem_forecast.mp hmem with hrun | hwait
    · exact hc.cpu.notMem_pending_of_running hrun hpending
    · exact hc.cpu.notMem_pending_of_ready hwait hpending
  · intro hmem
    obtain ⟨d, hd, hdp⟩ := mem_dispatched_iff.mp hmem
    exact hc.fresh_arrival hq he d hd hdp

theorem Coherent.steps_of_arrival (hc : Coherent w s) (hround : Round s e q s')
    (he : e.type = .arrival p) :
    Forecast.Steps ⟨s.forecast.upcoming ++ [p], s.forecast.taken⟩ s'.forecast := by
  cases hround with
  | start x htype hrun =>
    obtain rfl := EventType.arrival.inj (he.symm.trans htype)
    have hmembers : RRProcessQueue.members s.waiting = [] := hc.idle hrun
    simp only [RRProcessQueue.members, List.append_eq_nil_iff] at hmembers
    obtain ⟨⟨hactive, hround⟩, hpending⟩ := hmembers
    have hnil : s.forecast.upcoming = [] := by
      simp only [forecast, RRProcessQueue.forecast, hactive, hround, hpending, hrun]
      rfl
    have hone : ((s.popped e q).dispatch p Bool.false).forecast = ⟨[p], s.dispatched ++ [p]⟩ := by
      unfold forecast
      rw [dispatch_dispatched]
      show Forecast.mk (RRProcessQueue.forecast s.waiting (some p)) _ = _
      simp only [RRProcessQueue.forecast, hactive, hround, hpending]
      rfl
    rw [hnil]
    show Forecast.Steps _ ((s.popped e q).dispatch p Bool.false).forecast
    rw [hone]
    exact .single (.turn ⟨[p], s.dispatched⟩ p [] [p] rfl (.inr rfl))
  | wait x r htype hrun hle =>
    obtain rfl := EventType.arrival.inj (he.symm.trans htype)
    have heq : ((s.popped e q).addWaiting p).forecast =
        ⟨s.forecast.upcoming ++ [p], s.forecast.taken⟩ :=
      congrArg (Forecast.mk · s.dispatched) (rrEnqueue_forecast s.waiting p s.running)
    rw [heq]
    exact .refl
  | preempt x r htype hrun hstcf hlt => exact absurd hstcf Bool.false_ne_true
  | complete x htype hrun hrem => exact absurd (he.symm.trans htype) (by simp)
  | expire x htype hrun hrem => exact absurd (he.symm.trans htype) (by simp)

/-- The state in which the next process is looked for at the end of a segment. -/
structure Freed (s : SchedulerState (.rr quantum) n) (e : Event n)
    (a : SchedulerState (.rr quantum) n) : Prop where
  steps : Forecast.Steps s.forecast a.freeForecast
  dispatches : a.dispatches = s.dispatches
  subset : a.freeForecast.upcoming ⊆ s.forecast.upcoming
  currentTime : a.currentTime = e.time
  time : e.time = frontier s.log

theorem Coherent.freed (hc : Coherent w s) (hq : s.eventQueue.items = e :: q.items)
    (hround : Round s e q s') (he : ∀ p, e.type ≠ .arrival p) :
    ∃ a, Freed s e a ∧ s' = a.dispatchNext Bool.false := by
  cases hround with
  | start x htype hrun => exact absurd htype (he x)
  | wait x r htype hrun hle => exact absurd htype (he x)
  | preempt x r htype hrun hstcf hlt => exact absurd htype (he x)
  | complete x htype hrun hrem =>
    -- the process that has ended has no turn to come
    have hwait : x ∉ RRProcessQueue.members s.waiting := hc.cpu.notMem_ready_of_running hrun
    have hfilter := RRProcessQueue.forecast_filter hwait
    have hup : s.forecast.upcoming = RRProcessQueue.forecast s.waiting (some x) := by
      unfold forecast
      rw [hrun]
    refine ⟨{ s.popped e q with running := none }, ?_, rfl⟩
    refine { dispatches := rfl, currentTime := rfl, time := ?_, steps := ?_, subset := ?_ }
    · have hleave := Forecast.Step.leave s.forecast x
        (mem_dispatched_iff.mpr (hc.cpu.running_logged x hrun))
      rw [hup, hfilter] at hleave
      exact .single hleave
    · show RRProcessQueue.forecast s.waiting none ⊆ _
      rw [hup, ← hfilter]
      exact List.filter_subset_self _
    · obtain ⟨x', hrun', hend, _⟩ := hc.of_endsSegment hq (by rw [Event.endsSegment, htype])
      rw [hend]
      rfl
  | expire x htype hrun hrem =>
    -- in the round list the process stands where the forecast has it
    have hup : s.forecast.upcoming =
        ((s.popped e q).putBack x).freeForecast.upcoming := by
      unfold forecast
      rw [hrun]
      exact (rrRequeue_forecast s.waiting x).symm
    refine ⟨(s.popped e q).putBack x, ?_, rfl⟩
    refine { dispatches := rfl, currentTime := rfl, time := ?_, steps := ?_, subset := ?_ }
    · have heq : s.forecast = ((s.popped e q).putBack x).freeForecast :=
        congrArg (Forecast.mk · s.dispatched) hup
      rw [heq]
      exact .refl
    · rw [hup]
      exact List.Subset.refl _
    · obtain ⟨x', hrun', hend, _⟩ := hc.of_endsSegment hq (by rw [Event.endsSegment, htype])
      rw [hend]
      rfl

theorem Coherent.steps (hc : Coherent w s) (hq : s.eventQueue.items = e :: q.items)
    (hround : Round s e q s') : Forecast.Steps s.forecast s'.forecast := by
  by_cases harrival : ∃ p, e.type = .arrival p
  · obtain ⟨p, he⟩ := harrival
    obtain ⟨hup, htaken⟩ := hc.join hq he
    exact .head (.join s.forecast p hup htaken) (hc.steps_of_arrival hround he)
  · obtain ⟨a, hfreed, rfl⟩ := hc.freed hq hround (not_exists.mp harrival)
    exact hfreed.steps.trans (a.dispatchNext_step false)

section Overtaking

variable {pol : Policy} {s s' : SchedulerState pol n}

theorem Reaches.exists_dispatched (hw : w.Nonneg) (hpol : pol.Valid) (hboost : pol.boostPeriod ≤ 0)
    (h : Loop.Reaches loopBody (startState pol w) s) {before after : List (Fin n)}
    (hsplit : s.dispatched = before ++ p :: after) :
    ∃ t, Loop.Reaches loopBody (startState pol w) t ∧ t.dispatched = before ++ [p] ∧
      t.running = some p ∧ Loop.Reaches loopBody t s := by
  induction h generalizing after with
  | refl =>
    rw [dispatched, (startState_starting hw pol).dispatches] at hsplit
    simp at hsplit
  | tail hr hb ih =>
    obtain ⟨_, _, e, q, _, hround⟩ := Reaches.round hw hpol hboost hr hb
    rcases hround.dispatched_cases with heq | ⟨b, heq, hrun⟩
    · obtain ⟨t, ht, hdispatched, hrunning, hreach⟩ := ih (heq.symm.trans hsplit)
      exact ⟨t, ht, hdispatched, hrunning, hreach.tail hb⟩
    · rcases List.eq_nil_or_concat after with rfl | ⟨after, z, rfl⟩
      · refine ⟨_, hr.tail hb, hsplit, ?_, .refl⟩
        rw [heq] at hsplit
        obtain ⟨_, hlast⟩ := List.append_inj' hsplit rfl
        rw [hrun, (List.cons.inj hlast).1]
      · rw [heq, List.concat_eq_append, ← List.cons_append, ← List.append_assoc] at hsplit
        obtain ⟨hinit, _⟩ := List.append_inj' hsplit rfl
        obtain ⟨t, ht, hdispatched, hrunning, hreach⟩ := ih hinit
        exact ⟨t, ht, hdispatched, hrunning, hreach.tail hb⟩

theorem Coherent.inside_nodup (hc : Coherent w s) :
    (s.running.toList ++ pol.members s.waiting).Nodup := by
  have hsub : ((s.running.toList ++ pol.members s.waiting : List (Fin n)) : Multiset (Fin n)) ≤
      Finset.univ.val := by
    rw [← hc.cpu.placed, ← Multiset.coe_add, add_comm]
    show (s.cpu.ready + s.cpu.onCpu) ≤ _
    rw [add_assoc s.cpu.pending]
    exact (Multiset.le_add_left _ _).trans (Multiset.le_add_right _ _)
  exact Multiset.coe_nodup.mp (Multiset.nodup_of_le hsub Finset.univ.nodup)

theorem Coherent.inside_length_lt (hc : Coherent w s) (hp : p ∈ arrivals s.eventQueue.items) :
    (s.running.toList ++ pol.members s.waiting).length < n := by
  have hcard := congrArg Multiset.card hc.cpu.placed
  have hpending : 0 < Multiset.card s.cpu.pending := Multiset.card_pos_iff_exists_mem.mpr ⟨p, hp⟩
  have hready : Multiset.card s.cpu.ready = (pol.members s.waiting).length := Multiset.coe_card _
  have hcpu : Multiset.card s.cpu.onCpu = s.running.toList.length := Multiset.coe_card _
  rw [Multiset.card_add, Multiset.card_add, Multiset.card_add, Finset.card_val, Finset.card_univ,
    Fintype.card_fin] at hcard
  rw [List.length_append]
  omega

end Overtaking

theorem Reaches.forecast_steps (hw : w.Nonneg) (hq : 1 ≤ quantum)
    (h : Loop.Reaches loopBody (startState (.rr quantum) w) s) (h' : Loop.Reaches loopBody s s') :
    Forecast.Steps s.forecast s'.forecast := by
  induction h' with
  | refl => exact .refl
  | tail hr hb ih =>
    obtain ⟨hc, _, e, q, hitems, hround⟩ := Reaches.round hw (Policy.rr_valid hq)
      (Policy.rr_boostPeriod_le quantum) (h.trans hr) hb
    exact ih.trans (hc.steps hitems hround)

theorem Coherent.count_turnsBefore_le (hc : Coherent w s) (hrun : s.running = some p) (a : Fin n) :
    (turnsBefore p s.forecast.upcoming).count a ≤ 1 := by
  have hnodup := hc.inside_nodup
  rw [hrun, Option.toList_some, List.singleton_append, List.nodup_cons] at hnodup
  obtain ⟨hp, hnodup⟩ := hnodup
  have hmembers : Policy.members _ s.waiting = (RRProcessQueue.active s.waiting ++
      RRProcessQueue.round s.waiting) ++ RRProcessQueue.pending s.waiting := rfl
  rw [hmembers] at hp hnodup
  have hup : s.forecast.upcoming = (RRProcessQueue.active s.waiting ++
      RRProcessQueue.round s.waiting) ++ p ::
        (RRProcessQueue.active s.waiting ++ RRProcessQueue.pending s.waiting) := by
    simp only [forecast, RRProcessQueue.forecast, hrun, Option.toList_some, List.append_assoc,
      List.cons_append, List.nil_append]
  rw [hup, turnsBefore_of_notMem fun h => hp (List.mem_append_left _ h)]
  exact List.nodup_iff_count_le_one.mp (List.nodup_append.mp hnodup).1 a

theorem Coherent.count_upcoming_le (hc : Coherent w s) (a : Fin n) :
    s.forecast.upcoming.count a ≤ 2 := by
  have hnodup := hc.inside_nodup
  have hactive : (RRProcessQueue.active s.waiting).Nodup :=
    (List.nodup_append.mp (List.nodup_append.mp (List.nodup_append.mp hnodup).2.1).1).1
  have hcount := (RRProcessQueue.forecast_perm s.waiting s.running).count_eq a
  rw [List.count_append] at hcount
  have hone := List.nodup_iff_count_le_one.mp hnodup a
  have hone' := List.nodup_iff_count_le_one.mp hactive a
  show (RRProcessQueue.forecast s.waiting s.running).count a ≤ 2
  rw [hcount]
  exact Nat.add_le_add hone hone'

theorem Coherent.length_upcoming_le (hc : Coherent w s) (hp : p ∈ arrivals s.eventQueue.items)
    (hrun : s.running = some r) : s.forecast.upcoming.length + 3 ≤ 2 * n := by
  have hlt : s.running.toList.length + (RRProcessQueue.members s.waiting).length < n :=
    List.length_append ▸ hc.inside_length_lt hp
  have hlength := RRProcessQueue.forecast_length s.waiting s.running
  have hactive := RRProcessQueue.active_length_le s.waiting
  have hone : s.running.toList.length = 1 := by
    rw [hrun]
    rfl
  show (RRProcessQueue.forecast s.waiting s.running).length + 3 ≤ 2 * n
  omega

/-- From `time` on, one quantum for each turn before its first leaves every process on time. -/
def OnTime (w : Workload n) (quantum : Int) (f : Forecast (Fin n)) (time : Int) : Prop :=
  ∀ p ∈ f.upcoming, p ∉ f.taken →
    time + quantum * ((turnsBefore p f.upcoming).length : Int) ≤
      w.arrivalTime p + 2 * ((n : Int) - 1) * quantum

theorem OnTime.steps (hquantum : 1 ≤ quantum) {f f' : Forecast (Fin n)} {t t' : Int}
    (h : OnTime w quantum f t) (hs : Forecast.Steps f f') (hsub : f'.upcoming ⊆ f.upcoming)
    (htime : t' + quantum * (f.taken.length : Int) ≤ t + quantum * (f'.taken.length : Int)) :
    OnTime w quantum f' t' := by
  intro p hp hnew
  have hold : p ∉ f.taken := fun hmem => hnew (hs.taken_prefix.subset hmem)
  have hle := (hs.turnsBefore_le (c := fun _ => true) (hsub hp) hnew).2
  simp only [List.countP_true] at hle
  have hbound := h p (hsub hp) hold
  have hcost : quantum * (((turnsBefore p f'.upcoming).length : Int) + (f'.taken.length : Int)) ≤
      quantum * (((turnsBefore p f.upcoming).length : Int) + (f.taken.length : Int)) := by
    apply mul_le_mul_of_nonneg_left _ (by omega)
    exact_mod_cast hle
  rw [mul_add, mul_add] at hcost
  linarith

def FirstOnTime (w : Workload n) (quantum : Int) (pre : List (Dispatch n)) (d : Dispatch n) : Prop :=
  d.process ∉ pre.map Dispatch.process →
    d.time ≤ w.arrivalTime d.process + 2 * ((n : Int) - 1) * quantum

structure Prompt (w : Workload n) (s : SchedulerState (.rr quantum) n) : Prop where
  brief : frontier s.log ≤ s.currentTime + quantum
  onTime : OnTime w quantum s.forecast (frontier s.log)
  first : EachTurn (FirstOnTime w quantum) s.dispatches

theorem dispatch_frontier (s : SchedulerState (.rr quantum) n) (p : Fin n) (arrange : Bool) :
    frontier (s.dispatch p arrange).log ≤ s.currentTime + quantum := by
  have hlog : (s.dispatch p arrange).log = s.log ++ [⟨p, s.currentTime, s.runTime p⟩] := by
    rw [log, dispatch_dispatches, List.map_append]
    rfl
  have hrun : s.runTime p ≤ quantum := by
    show (scheduleRr quantum s.currentTime (s.processes p)).2 ≤ quantum
    unfold scheduleRr
    dsimp only
    split_ifs with hle
    · exact hle
    · exact le_rfl
  rw [hlog, frontier_snoc]
  exact add_le_add_right hrun _

theorem Prompt.dispatchNext (hquantum : 1 ≤ quantum) (hnow : frontier s.log = s.currentTime)
    (hon : OnTime w quantum s.freeForecast s.currentTime)
    (hfirst : EachTurn (FirstOnTime w quantum) s.dispatches) (arrange : Bool) :
    Prompt w (s.dispatchNext arrange) := by
  have hstep := s.dispatchNext_step arrange
  rcases s.dispatchNext_cases arrange with ⟨_, heq⟩ | ⟨p, waiting, hd, _, heq⟩
  · rw [heq]
    refine ⟨?_, ?_, hfirst⟩
    · show frontier s.log ≤ s.currentTime + quantum
      omega
    · show OnTime w quantum s.freeForecast (frontier s.log)
      rw [hnow]
      exact hon
  · obtain ⟨rest, hnext, hrest⟩ := rrDequeue_forecast hd
    have hfrontier := dispatch_frontier { s with waiting := waiting } p arrange
    rw [heq] at hstep ⊢
    have htaken := dispatch_dispatched { s with waiting := waiting } p arrange
    refine ⟨hfrontier, hon.steps hquantum hstep ?_ ?_, ?_⟩
    · show RRProcessQueue.forecast waiting (some p) ⊆ RRProcessQueue.forecast s.waiting none
      rw [hnext]
      rcases hrest with hrest | hrest <;> rw [hrest]
      · exact List.subset_cons_self p rest
      · exact List.append_subset.mpr ⟨List.subset_cons_self p rest, List.Subset.refl _⟩
    · show _ + quantum * (s.dispatched.length : Int) ≤ s.currentTime + quantum *
        ((({ s with waiting := waiting } : SchedulerState (.rr quantum) n).dispatch p
          arrange).dispatched.length : Int)
      -- the turn that is taken pays for the quantum of its segment
      rw [htaken, List.length_append, List.length_singleton]
      push_cast
      have hsame : (({ s with waiting := waiting } : SchedulerState (.rr quantum) n).dispatched.length
          : Int) = (s.dispatched.length : Int) := rfl
      rw [hsame, mul_add]
      change _ ≤ s.currentTime + quantum at hfrontier
      linarith
    · rw [dispatch_dispatches]
      refine eachTurn_concat.mpr ⟨hfirst, fun hnew => ?_⟩
      have hmem : p ∈ s.freeForecast.upcoming := by
        show p ∈ RRProcessQueue.forecast s.waiting none
        rw [hnext]
        exact List.mem_cons_self
      have hle := hon p hmem hnew
      have hnonneg : 0 ≤ quantum * ((turnsBefore p s.freeForecast.upcoming).length : Int) :=
        mul_nonneg (by omega) (Int.natCast_nonneg _)
      show s.currentTime ≤ _
      linarith

/-- A process that arrives while another runs finds at most one quantum to wait for, and then no
more turns than the bound allows. -/
theorem Prompt.round_arrival (hquantum : 1 ≤ quantum) (h : Prompt w s) (hc : Coherent w s)
    (hq : s.eventQueue.items = e :: q.items) (hround : Round s e q s') (he : e.type = .arrival p) :
    Prompt w s' := by
  have hpending : p ∈ arrivals s.eventQueue.items :=
    mem_arrivals.mpr ⟨e, hq ▸ List.mem_cons_self, he⟩
  have hmem : e ∈ s.eventQueue.items := hq ▸ List.mem_cons_self
  have htime := hc.arrival e hmem p he
  have hfuture := hc.future e hmem
  cases hround with
  | start x htype hrun =>
    obtain rfl := EventType.arrival.inj (he.symm.trans htype)
    refine ⟨dispatch_frontier (s.popped e q) p _, fun r hr hnew => ?_, ?_⟩
    · -- nobody else is there, and `p` has its first turn now
      rcases RRProcessQueue.mem_forecast.mp hr with hr | hr
      · obtain rfl := Option.some.inj hr
        rw [forecast, dispatch_dispatched] at hnew
        exact absurd (List.mem_append_right _ (List.mem_singleton_self _)) hnew
      · have hwait : r ∈ Policy.members _ s.waiting := hr
        rw [hc.idle hrun] at hwait
        exact absurd hwait List.not_mem_nil
    · rw [dispatch_dispatches]
      refine eachTurn_concat.mpr ⟨h.first, fun _ => ?_⟩
      have hone : 0 ≤ 2 * ((n : Int) - 1) * quantum := by
        have hn := p.isLt
        apply mul_nonneg <;> omega
      show e.time ≤ w.arrivalTime p + 2 * ((n : Int) - 1) * quantum
      omega
  | wait x r htype hrun hle =>
    obtain rfl := EventType.arrival.inj (he.symm.trans htype)
    obtain ⟨hup, htaken⟩ := hc.join hq he
    have hforecast : ((s.popped e q).addWaiting p).forecast =
        ⟨s.forecast.upcoming ++ [p], s.forecast.taken⟩ :=
      congrArg (Forecast.mk · s.dispatched) (rrEnqueue_forecast s.waiting p s.running)
    refine ⟨?_, ?_, h.first⟩
    · have hbrief := h.brief
      show frontier s.log ≤ e.time + quantum
      omega
    · rw [hforecast]
      intro a ha hnew
      show frontier s.log + _ ≤ _
      rcases List.mem_append.mp ha with ha | ha
      · rw [turnsBefore_append ha]
        exact h.onTime a ha hnew
      · -- what is left of the running segment, and then at most 2n - 3 turns
        rw [List.mem_singleton.mp ha, turnsBefore_of_notMem hup, ← htime]
        have hlength := hc.length_upcoming_le hpending hrun
        have hcost : quantum * (s.forecast.upcoming.length : Int) ≤ quantum * (2 * (n : Int) - 3) := by
          apply mul_le_mul_of_nonneg_left _ (by omega)
          omega
        have hbrief := h.brief
        linarith
  | preempt x r htype hrun hstcf hlt => exact absurd hstcf Bool.false_ne_true
  | complete x htype hrun hrem => exact absurd (he.symm.trans htype) (by simp)
  | expire x htype hrun hrem => exact absurd (he.symm.trans htype) (by simp)

theorem Prompt.round (hquantum : 1 ≤ quantum) (h : Prompt w s) (hc : Coherent w s)
    (hq : s.eventQueue.items = e :: q.items) (hround : Round s e q s') : Prompt w s' := by
  by_cases harrival : ∃ p, e.type = .arrival p
  · obtain ⟨p, he⟩ := harrival
    exact h.round_arrival hquantum hc hq hround he
  · obtain ⟨a, hfreed, rfl⟩ := hc.freed hq hround (not_exists.mp harrival)
    have hlog : a.log = s.log := congrArg (List.map Dispatch.segment) hfreed.dispatches
    have hdispatched : a.dispatched = s.dispatched :=
      congrArg (List.map Dispatch.process) hfreed.dispatches
    have hnow : frontier a.log = a.currentTime := by
      rw [hlog, hfreed.currentTime, hfreed.time]
    apply Prompt.dispatchNext hquantum hnow
    · refine h.onTime.steps hquantum hfreed.steps hfreed.subset ?_
      show a.currentTime + quantum * (s.dispatched.length : Int) ≤
        frontier s.log + quantum * (a.dispatched.length : Int)
      rw [hdispatched, ← hnow, hlog]
    · rw [hfreed.dispatches]
      exact h.first

theorem Reaches.prompt (hw : w.Nonneg) (hquantum : 1 ≤ quantum)
    (h : Loop.Reaches loopBody (startState (.rr quantum) w) s) : Prompt w s := by
  refine Reaches.induction hw (Policy.rr_valid hquantum) (Policy.rr_boostPeriod_le quantum)
    (Prompt w) ?_ (fun s e q s' hc _ hq hround hprompt => hprompt.round hquantum hc hq hround) h
  have hstart := startState_starting hw (.rr quantum)
  have hlog : (startState (.rr quantum) w).log = [] := by
    rw [log, hstart.dispatches]
    rfl
  refine ⟨?_, fun p hp => ?_, ?_⟩
  · rw [hlog, frontier_nil, hstart.currentTime]
    omega
  · rcases RRProcessQueue.mem_forecast.mp hp with hp | hp
    · rw [hstart.running] at hp
      exact absurd hp.symm (Option.some_ne_none p)
    · have hwait : p ∈ Policy.members _ (startState (.rr quantum) w).waiting := hp
      rw [hstart.waiting] at hwait
      exact absurd hwait List.not_mem_nil
  · rw [hstart.dispatches]
    exact eachTurn_nil

theorem Prompt.startTime_le (h : Prompt w s) (hc : Coherent w s) (hend : s.loopBody = none)
    (p : Fin n) :
    (s.finish.processes p).startTime - w.arrivalTime p ≤ 2 * ((n : Int) - 1) * quantum := by
  obtain ⟨d, hd, hstart⟩ := (hc.accounted hend).startTime p
  rw [hc.finish_eq hend] at hd
  have hfirst : s.dispatches.filter (fun d => d.process = p) = d ::
      (s.dispatches.filter fun d => d.process = p).tail := List.eq_cons_of_mem_head? hd
  obtain ⟨pre, post, hsplit, hpre, hdp, _⟩ := List.filter_eq_cons_iff.mp hfirst
  have hnew : d.process ∉ pre.map Dispatch.process := by
    intro hmem
    obtain ⟨d', hd', hsame⟩ := List.mem_map.mp hmem
    exact hpre d' hd' (decide_eq_true (hsame.trans (of_decide_eq_true hdp)))
  have hle := h.first pre d post hsplit hnew
  rw [of_decide_eq_true hdp] at hle
  rw [hstart]
  linarith

end SchedulerState

open SchedulerState

/-- Round robin is fair: between two dispatches of a process nobody else is dispatched twice, between
its arrival and its first dispatch nobody three times, and the response times are bounded. -/
theorem roundRobin_fair {w : Workload n} (hw : w.Nonneg) {quantum : Int} (hquantum : 1 ≤ quantum) :
    (∀ s : SchedulerState (.rr quantum) n, Loop.Reaches loopBody (startState _ w) s →
      ∀ p before mid after, s.dispatched = before ++ p :: (mid ++ p :: after) → p ∉ mid →
        ∀ a, mid.count a ≤ 1) ∧
    (∀ s s' : SchedulerState (.rr quantum) n, Loop.Reaches loopBody (startState _ w) s →
      Loop.Reaches loopBody s s' → ∀ p, s.HandlesNext (.arrival p) →
        ∀ mid after, s'.dispatched = s.dispatched ++ (mid ++ after) → p ∉ mid →
          ∀ a, mid.count a ≤ 2) ∧
    (∃ fuel s, simulateScheduler (.rr quantum) w fuel = some s) ∧
      ∀ fuel (s : SchedulerState (.rr quantum) n), simulateScheduler (.rr quantum) w fuel = some s →
        ∀ p, (s.processes p).startTime - w.arrivalTime p ≤ 2 * ((n : Int) - 1) * quantum := by
  have hvalid := Policy.rr_valid hquantum
  have hboost := Policy.rr_boostPeriod_le quantum
  refine ⟨fun s hs p before mid after hsplit hmid a => ?_,
    fun s s' hs hs' p hnext mid after hsplit hmid a => ?_,
    simulateScheduler_returns hw hvalid hboost,
    fun fuel s hsim p => ?_⟩
  · -- from the state right after the first of the two dispatches
    obtain ⟨t, ht, hdispatched, hrun, hreach⟩ := Reaches.exists_dispatched hw hvalid hboost hs hsplit
    have hc := Reaches.coherent hw hvalid hboost ht
    have hsteps := Reaches.forecast_steps hw hquantum ht hreach
    have hp : p ∈ t.forecast.upcoming := RRProcessQueue.mem_forecast.mpr (.inl hrun)
    have htaken : s.forecast.taken = t.forecast.taken ++ (mid ++ p :: after) := by
      show s.dispatched = t.dispatched ++ (mid ++ p :: after)
      rw [hsplit, hdispatched, List.append_assoc]
      rfl
    exact hsteps.countP_le hp (hc.count_turnsBefore_le hrun a) htaken hmid (.inr List.mem_cons_self)
  · have hc := Reaches.coherent hw hvalid hboost hs
    obtain ⟨e, q, hq, he⟩ := hnext.exists_event
    rcases hs'.cases_head with rfl | ⟨s₁, hb, hrest⟩
    · have hnil := List.append_right_eq_self.mp hsplit.symm
      rw [(List.append_eq_nil_iff.mp hnil).1, List.count_nil]
      exact Nat.zero_le 2
    · -- from the forecast in which the arrival stands at the end
      obtain rfl := Option.some.inj ((loopBody_of_items hq).symm.trans hb)
      have hround := hc.round_cases hw hvalid hq (by simp [he])
      have hsteps : Forecast.Steps ⟨s.forecast.upcoming ++ [p], s.dispatched⟩ s'.forecast :=
        (hc.steps_of_arrival hround he).trans
          (Reaches.forecast_steps hw hquantum (hs.tail hb) hrest)
      obtain ⟨hup, htaken⟩ := hc.join hq he
      have hp : p ∈ s.forecast.upcoming ++ [p] :=
        List.mem_append_right _ (List.mem_singleton_self p)
      have hbefore : (turnsBefore p (s.forecast.upcoming ++ [p])).count a ≤ 2 := by
        rw [turnsBefore_of_notMem hup]
        exact hc.count_upcoming_le a
      exact hsteps.countP_le hp hbefore hsplit hmid (.inl htaken)
  · obtain ⟨t, hreach, hend, rfl⟩ := simulateScheduler_eq_some hsim
    exact (Reaches.prompt hw hquantum hreach).startTime_le
      (Reaches.coherent hw hvalid hboost hreach) hend p

theorem roundRobin_fair_sample :
    (∀ s : SchedulerState (.rr 2) 2, Loop.Reaches loopBody (startState _ sampleWorkload) s →
      ∀ p before mid after, s.dispatched = before ++ p :: (mid ++ p :: after) → p ∉ mid →
        ∀ a, mid.count a ≤ 1) ∧
    (∀ s s' : SchedulerState (.rr 2) 2, Loop.Reaches loopBody (startState _ sampleWorkload) s →
      Loop.Reaches loopBody s s' → ∀ p, s.HandlesNext (.arrival p) →
        ∀ mid after, s'.dispatched = s.dispatched ++ (mid ++ after) → p ∉ mid →
          ∀ a, mid.count a ≤ 2) ∧
    (∃ fuel s, simulateScheduler (.rr 2) sampleWorkload fuel = some s) ∧
      ∀ fuel (s : SchedulerState (.rr 2) 2), simulateScheduler (.rr 2) sampleWorkload fuel = some s →
        ∀ p, (s.processes p).startTime - sampleWorkload.arrivalTime p ≤ 2 * ((2 : Nat) - 1 : Int) * 2 :=
  roundRobin_fair sampleWorkload_nonneg (by decide)

end OsLab.Sched
