import Mathlib.Data.Int.ConditionallyCompleteOrder
import Mathlib.Data.Int.Interval
import Mathlib.Tactic.Ring
import OsLab.Foundation.Cpu

/-! What a machine that is never idle while a job is ready makes of the jobs' delays: a job that
waits waits for the service of others, and the delays weighted with the service are the same
whatever the order of service. -/

namespace OsLab

variable {P : Type*} [DecidableEq P] {arrival burst : P → ℤ} {log log' : List (Segment P)}

theorem servedBefore_mono (log : List (Segment P)) (p : P) {a b : ℤ} (hab : a ≤ b) :
    servedBefore log p a ≤ servedBefore log p b := by
  refine List.sum_le_sum fun d _ => ?_
  split_ifs
  · unfold Segment.before
    omega
  · exact le_rfl

namespace Timeline

theorem work_of_busy (h : Timeline arrival burst log) {a b : ℤ} (hab : a ≤ b)
    (hbusy : ∀ u, a ≤ u → u < b → u ∈ busy log) : work log b = work log a + (b - a) := by
  classical
  induction b, hab using Int.leInduction with
  | base => omega
  | succ b hab ih =>
    rw [h.work_succ, if_pos (hbusy b hab (Int.lt_succ b)), ih fun u hu hlt => hbusy u hu (by omega)]
    ring

theorem others_served [Fintype P] (h : Timeline arrival burst log) {p : P} {b : ℤ}
    (hab : arrival p ≤ b) (hbusy : ∀ u, arrival p ≤ u → u < b → u ∈ busy log) :
    ∑ q ∈ Finset.univ.erase p, (servedBefore log q b - servedBefore log q (arrival p)) =
      b - arrival p - servedBefore log p b := by
  have hwork := h.work_of_busy hab hbusy
  rw [work_eq_sum, work_eq_sum] at hwork
  have hall : ∑ q, (servedBefore log q b - servedBefore log q (arrival p)) = b - arrival p := by
    rw [Finset.sum_sub_distrib]
    omega
  rw [← Finset.add_sum_erase _ _ (Finset.mem_univ p), h.servedBefore_of_le_arrival le_rfl] at hall
  omega

end Timeline

/-- The machine has been busy since the arrival of every job that is ready, and from the arrival of
every job to the end of each of its segments. -/
structure Cpu.Kept (arrival : P → ℤ) (c : Cpu P) : Prop where
  ready : ∀ p ∈ c.ready, ∀ u, arrival p ≤ u → u < c.now → u ∈ busy c.log
  log : ∀ d ∈ c.log, ∀ u, arrival d.process ≤ u → u < d.stop → u ∈ busy c.log
  started : ∀ d ∈ c.log, d.start ≤ c.now
  current : ∀ p, c.running = some p → ∃ d ∈ c.log, d.process = p ∧ d.stop = frontier c.log

omit [DecidableEq P] in
theorem Cpu.Kept.advance {c : Cpu P} (h : c.Kept arrival) {t : ℤ} (hle : c.now ≤ t)
    (hbusy : c.running ≠ none → t ≤ frontier c.log) (hidle : c.running = none → c.ready = 0) :
    Cpu.Kept arrival { c with now := t } := by
  refine ⟨fun p hp u hu hlt => ?_, h.log, fun d hd => (h.started d hd).trans hle, h.current⟩
  rcases lt_or_ge u c.now with hpast | hpast
  · exact h.ready p hp u hu hpast
  · -- a process is ready, so that time has passed in the segment of another one
    cases hrun : c.running with
    | none => exact absurd hp (hidle hrun ▸ Multiset.notMem_zero p)
    | some r =>
      obtain ⟨d, hd, -, hstop⟩ := h.current r hrun
      have hend := hbusy (hrun ▸ Option.some_ne_none r)
      have hlt : u < t := hlt
      exact ⟨d, hd, (h.started d hd).trans hpast, by omega⟩

omit [DecidableEq P] in
theorem Cpu.Kept.busy_of_running {c : Cpu P} (h : c.Kept arrival) {p : P} (hp : c.running = some p)
    (hend : frontier c.log = c.now) {u : ℤ} (hu : arrival p ≤ u) (hlt : u < c.now) :
    u ∈ busy c.log := by
  obtain ⟨d, hd, rfl, hstop⟩ := h.current p hp
  exact h.log d hd u hu (by omega)

theorem Cpu.Kept.dispatch {c : Cpu P} (h : c.Kept arrival) {p : P} {ready : Multiset P} {r : ℤ}
    (hp : c.ready = p ::ₘ ready) : Cpu.Kept arrival { c with
      ready := ready
      running := some p
      left := Function.update c.left p (c.left p - r)
      log := c.log ++ [⟨p, c.now, r⟩] } := by
  have hall := h.ready
  rw [hp] at hall
  refine ⟨fun q hq u hu hlt => mem_busy_snoc.mpr (.inl ?_), fun d hd u hu hlt => mem_busy_snoc.mpr ?_,
    fun d hd => ?_, fun q hq => ?_⟩
  · exact hall q (Multiset.mem_cons_of_mem hq) u hu hlt
  · rcases List.mem_append.mp hd with hd | hd
    · exact .inl (h.log d hd u hu hlt)
    · obtain rfl := List.mem_singleton.mp hd
      rcases lt_or_ge u c.now with hpast | hpast
      · exact .inl (hall p (Multiset.mem_cons_self p ready) u hu hpast)
      · exact .inr ⟨hpast, hlt⟩
  · rcases List.mem_append.mp hd with hd | hd
    · exact h.started d hd
    · obtain rfl := List.mem_singleton.mp hd
      exact le_rfl
  · obtain rfl := Option.some.inj hq
    exact ⟨_, List.mem_append_right _ (List.mem_singleton_self _), rfl, (frontier_snoc _ _).symm⟩

theorem Cpu.Kept.step {c c' : Cpu P} (h : c.Kept arrival) (hstep : Cpu.Step arrival c c') :
    c'.Kept arrival := by
  cases hstep with
  | advance t hle hpending hbusy hidle => exact h.advance hle hbusy hidle
  | arrive p pending hp harrival =>
    refine { h with ready := fun q hq u hu hlt => ?_ }
    rcases Multiset.mem_cons.mp hq with rfl | hq
    · exact absurd (harrival.symm.le.trans hu) (not_le.mpr hlt)
    · exact h.ready q hq u hu hlt
  | stop p hp hend hleft =>
    refine { h with ready := fun q hq u hu hlt => ?_, current := nofun }
    rcases Multiset.mem_cons.mp hq with rfl | hq
    · exact h.busy_of_running hp hend hu hlt
    · exact h.ready q hq u hu hlt
  | finish p hp hend hleft => exact { h with current := nofun }
  | dispatch p ready r hidle hp hr hle hprogress => exact h.dispatch hp

theorem Cpu.kept_of_steps [Fintype P] {c : Cpu P} (h : Cpu.Steps arrival (Cpu.init burst) c) :
    c.Kept arrival := by
  induction h with
  | refl => exact ⟨fun p hp => absurd hp (Multiset.notMem_zero p), nofun, nofun, nofun⟩
  | tail _ hstep ih => exact ih.step hstep

noncomputable def units (log : List (Segment P)) : Finset ℤ :=
  log.foldr (fun d s => Finset.Ico d.start d.stop ∪ s) ∅

omit [DecidableEq P] in
theorem mem_units {u : ℤ} : u ∈ units log ↔ u ∈ busy log := by
  induction log with
  | nil => simp [units, busy]
  | cons d log ih =>
    have hcons : u ∈ busy (d :: log) ↔ (d.start ≤ u ∧ u < d.stop) ∨ u ∈ busy log := by simp [busy]
    rw [hcons, ← ih, units, List.foldr_cons, Finset.mem_union, Finset.mem_Ico]
    rfl

theorem two_mul_sum_Ico (a : ℤ) {l : ℤ} (hl : 0 ≤ l) :
    2 * ∑ u ∈ Finset.Ico a (a + l), u = l * (2 * a + l - 1) := by
  induction l, hl using Int.leInduction with
  | base => simp
  | succ l hl ih =>
    have hsplit : Finset.Ico a (a + (l + 1)) = insert (a + l) (Finset.Ico a (a + l)) := by
      ext u
      rw [Finset.mem_insert, Finset.mem_Ico, Finset.mem_Ico]
      omega
    rw [hsplit, Finset.sum_insert (by simp), mul_add, ih]
    ring

def Segment.moment (d : Segment P) : ℤ := d.length * (2 * d.start + d.length - 1)

/-- Twice the sum of the times from the arrival of the job to the middle of each time unit. -/
def Segment.delay (arrival : P → ℤ) (d : Segment P) : ℤ :=
  d.length * (2 * (d.start - arrival d.process) + d.length)

theorem sum_length_mul [Fintype P] (f : P → ℤ) (log : List (Segment P)) :
    (log.map fun d => d.length * f d.process).sum = ∑ p, served log p * f p := by
  induction log using List.reverseRecOn with
  | nil => simp
  | append_singleton log d ih =>
    simp only [List.map_append, List.sum_append, List.map_singleton, List.sum_singleton,
      served_snoc, add_mul, Finset.sum_add_distrib, ih, ite_mul, zero_mul]
    rw [Finset.sum_ite_eq, if_pos (Finset.mem_univ _)]

omit [DecidableEq P] in
theorem sum_delay (log : List (Segment P)) : (log.map (Segment.delay arrival)).sum =
    (log.map Segment.moment).sum + (log.map fun d => d.length * (1 - 2 * arrival d.process)).sum := by
  induction log with
  | nil => rfl
  | cons d log ih =>
    rw [List.map_cons, List.map_cons, List.map_cons, List.sum_cons, List.sum_cons, List.sum_cons, ih,
      Segment.delay, Segment.moment]
    ring

namespace Timeline

theorem two_mul_sum_units (h : Timeline arrival burst log) :
    2 * ∑ u ∈ units log, u = (log.map Segment.moment).sum := by
  induction h with
  | nil => simp [units]
  | @snoc log d hlog hstart hlength _ _ _ ih =>
    have hunits : units (log ++ [d]) = units log ∪ Finset.Ico d.start d.stop := by
      ext u
      rw [mem_units, mem_busy_snoc, Finset.mem_union, mem_units, Finset.mem_Ico]
    have hdisjoint : Disjoint (units log) (Finset.Ico d.start d.stop) := by
      refine Finset.disjoint_left.mpr fun u hu hd => ?_
      obtain ⟨e, he, -, hlt⟩ := mem_units.mp hu
      have hle := hlog.stop_le_frontier e he
      have hge := (Finset.mem_Ico.mp hd).1
      omega
    rw [hunits, Finset.sum_union hdisjoint, mul_add, ih, List.map_append, List.sum_append,
      List.map_singleton, List.sum_singleton, Segment.stop, two_mul_sum_Ico d.start hlength,
      Segment.moment]

theorem sum_delay_unique [Fintype P] (harr : ∀ p, 0 ≤ arrival p) (h : Timeline arrival burst log)
    (h' : Timeline arrival burst log') (hc : ∀ p, served log p = burst p)
    (hc' : ∀ p, served log' p = burst p) :
    (log.map (Segment.delay arrival)).sum = (log'.map (Segment.delay arrival)).sum := by
  have hbusy := busy_unique harr h h' hc hc'
  have hunits : units log = units log' := by
    ext u
    rw [mem_units, mem_units, hbusy]
  rw [sum_delay, sum_delay, ← h.two_mul_sum_units, ← h'.two_mul_sum_units, hunits,
    sum_length_mul (fun p => 1 - 2 * arrival p), sum_length_mul (fun p => 1 - 2 * arrival p)]
  simp only [hc, hc']

end Timeline

theorem sum_delay_of_own [Fintype P] {start : P → ℤ}
    (hone : ∀ p, own log p = [⟨p, start p, burst p⟩]) :
    (log.map (Segment.delay arrival)).sum =
      2 * ∑ p, burst p * (start p - arrival p) + ∑ p, burst p * burst p := by
  rw [sum_map_own, Finset.mul_sum, ← Finset.sum_add_distrib]
  refine Finset.sum_congr rfl fun p _ => ?_
  rw [hone, List.map_singleton, List.sum_singleton, Segment.delay]
  ring

end OsLab
