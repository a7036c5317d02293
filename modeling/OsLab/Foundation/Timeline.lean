import Mathlib.Algebra.BigOperators.Group.List.Basic
import Mathlib.Algebra.Order.BigOperators.Group.Finset
import Mathlib.Algebra.BigOperators.Ring.Finset
import Mathlib.Data.Int.Order.Basic
import Mathlib.Data.List.Chain
import Mathlib.Order.Interval.Set.Basic
import Mathlib.Tactic.Linarith

/-! Schedules of one machine. A log is the sequence of segments in which the machine served
jobs; `Timeline` says that it was served one job at a time, no job before its release or past
its demand, and that the machine was idle only when nothing that had been released was left.
Two complete timelines of the same jobs are busy at the same times. -/

namespace OsLab

variable {P : Type*}

structure Segment (P : Type*) where
  process : P
  start : ℤ
  length : ℤ

namespace Segment

def stop (d : Segment P) : ℤ := d.start + d.length

/-- The part of the segment that lies before `u`. -/
def before (d : Segment P) (u : ℤ) : ℤ := max 0 (min d.stop u - d.start)

theorem before_le {d : Segment P} (h : 0 ≤ d.length) (u : ℤ) : d.before u ≤ d.length := by
  unfold before stop
  omega

theorem before_nonneg (d : Segment P) (u : ℤ) : 0 ≤ d.before u := le_max_left ..

theorem before_of_le {d : Segment P} {u : ℤ} (h : u ≤ d.start) : d.before u = 0 := by
  unfold before
  omega

theorem before_of_stop_le {d : Segment P} {u : ℤ} (hl : 0 ≤ d.length) (h : d.stop ≤ u) :
    d.before u = d.length := by
  unfold before stop at *
  omega

end Segment

def frontier (log : List (Segment P)) : ℤ := (log.getLast?.map Segment.stop).getD 0

@[simp] theorem frontier_nil : frontier ([] : List (Segment P)) = 0 := rfl

@[simp] theorem frontier_snoc (log : List (Segment P)) (d : Segment P) :
    frontier (log ++ [d]) = d.stop := by simp [frontier]

def busy (log : List (Segment P)) : Set ℤ := {u | ∃ d ∈ log, d.start ≤ u ∧ u < d.stop}

theorem mem_busy_snoc {log : List (Segment P)} {d : Segment P} {u : ℤ} :
    u ∈ busy (log ++ [d]) ↔ u ∈ busy log ∨ (d.start ≤ u ∧ u < d.stop) := by
  simp [busy, or_and_right, exists_or]

/-- The work done before `u`. -/
def work (log : List (Segment P)) (u : ℤ) : ℤ := (log.map fun d => d.before u).sum

@[simp] theorem work_nil (u : ℤ) : work ([] : List (Segment P)) u = 0 := rfl

@[simp] theorem work_snoc (log : List (Segment P)) (d : Segment P) (u : ℤ) :
    work (log ++ [d]) u = work log u + d.before u := by simp [work]

variable [DecidableEq P]

def served (log : List (Segment P)) (p : P) : ℤ :=
  (log.map fun d => if d.process = p then d.length else 0).sum

/-- The service a job has received before `u`. -/
def servedBefore (log : List (Segment P)) (p : P) (u : ℤ) : ℤ :=
  (log.map fun d => if d.process = p then d.before u else 0).sum

@[simp] theorem served_nil (p : P) : served [] p = 0 := rfl
@[simp] theorem servedBefore_nil (p : P) (u : ℤ) : servedBefore [] p u = 0 := rfl

@[simp] theorem served_snoc (log : List (Segment P)) (d : Segment P) (p : P) :
    served (log ++ [d]) p = served log p + if d.process = p then d.length else 0 := by
  simp [served]

@[simp] theorem servedBefore_snoc (log : List (Segment P)) (d : Segment P) (p : P) (u : ℤ) :
    servedBefore (log ++ [d]) p u =
      servedBefore log p u + if d.process = p then d.before u else 0 := by
  simp [servedBefore]

theorem servedBefore_append (log log' : List (Segment P)) (p : P) (u : ℤ) :
    servedBefore (log ++ log') p u = servedBefore log p u + servedBefore log' p u := by
  simp [servedBefore]

def own (log : List (Segment P)) (p : P) : List (Segment P) := log.filter (·.process = p)

theorem own_snoc_of_ne {d : Segment P} {p : P} (hp : d.process ≠ p) (log : List (Segment P)) :
    own (log ++ [d]) p = own log p := by
  rw [own, List.filter_append, List.filter_cons_of_neg (by simpa using hp), List.filter_nil,
    List.append_nil, own]

theorem own_snoc_self (log : List (Segment P)) (d : Segment P) :
    own (log ++ [d]) d.process = own log d.process ++ [d] := by
  rw [own, List.filter_append, List.filter_cons_of_pos (by simp), List.filter_nil, own]

theorem own_eq_nil {log : List (Segment P)} {p : P} (h : ∀ d ∈ log, d.process ≠ p) :
    own log p = [] := List.filter_eq_nil_iff.mpr fun d hd => by simpa using h d hd

theorem served_eq_sum_own (log : List (Segment P)) (p : P) :
    served log p = ((own log p).map Segment.length).sum := by
  induction log using List.reverseRecOn with
  | nil => rfl
  | append_singleton log d ih =>
    rw [served_snoc, ih]
    by_cases hp : d.process = p
    · subst hp
      rw [if_pos rfl, own_snoc_self, List.map_append, List.sum_append, List.map_singleton,
        List.sum_singleton]
    · rw [if_neg hp, own_snoc_of_ne hp, add_zero]

theorem sum_map_own {M : Type*} [AddCommMonoid M] [Fintype P] (f : Segment P → M)
    (log : List (Segment P)) : (log.map f).sum = ∑ p, ((own log p).map f).sum := by
  induction log using List.reverseRecOn with
  | nil => simp [own]
  | append_singleton log d ih =>
    have hown : ∀ p, ((own (log ++ [d]) p).map f).sum =
        ((own log p).map f).sum + if d.process = p then f d else 0 := by
      intro p
      by_cases hp : d.process = p
      · subst hp
        rw [own_snoc_self, List.map_append, List.sum_append, List.map_singleton, List.sum_singleton,
          if_pos rfl]
      · rw [own_snoc_of_ne hp, if_neg hp, add_zero]
    simp only [hown, Finset.sum_add_distrib, Finset.sum_ite_eq, Finset.mem_univ, if_true]
    rw [List.map_append, List.sum_append, ih, List.map_singleton, List.sum_singleton]

theorem served_eq_zero {log : List (Segment P)} {p : P} (h : ∀ d ∈ log, d.process ≠ p) :
    served log p = 0 := by
  refine List.sum_eq_zero fun x hx => ?_
  obtain ⟨d, hd, rfl⟩ := List.mem_map.mp hx
  rw [if_neg (h d hd)]

theorem servedBefore_eq_zero {log : List (Segment P)} {p : P} {u : ℤ}
    (h : ∀ d ∈ log, d.process = p → u ≤ d.start) : servedBefore log p u = 0 := by
  refine List.sum_eq_zero fun x hx => ?_
  obtain ⟨d, hd, rfl⟩ := List.mem_map.mp hx
  split_ifs with hp
  · exact Segment.before_of_le (h d hd hp)
  · rfl

theorem servedBefore_eq_served {log : List (Segment P)} {p : P} {u : ℤ}
    (hlength : ∀ d ∈ log, 0 ≤ d.length) (h : ∀ d ∈ log, d.process = p → d.stop ≤ u) :
    servedBefore log p u = served log p := by
  refine congrArg List.sum (List.map_congr_left fun d hd => ?_)
  split_ifs with hp
  · exact Segment.before_of_stop_le (hlength d hd) (h d hd hp)
  · rfl

theorem servedBefore_nonneg (log : List (Segment P)) (p : P) (u : ℤ) :
    0 ≤ servedBefore log p u := by
  refine List.sum_nonneg fun x hx => ?_
  obtain ⟨d, _, rfl⟩ := List.mem_map.mp hx
  split_ifs
  · exact d.before_nonneg u
  · exact le_rfl

theorem work_eq_sum [Fintype P] (log : List (Segment P)) (u : ℤ) :
    work log u = ∑ p, servedBefore log p u := by
  induction log using List.reverseRecOn with
  | nil => simp
  | append_singleton log d ih =>
    simp only [work_snoc, servedBefore_snoc, Finset.sum_add_distrib, ih, Finset.sum_ite_eq,
      Finset.mem_univ, if_true]

section Timeline

variable {arrival burst : P → ℤ}

inductive Timeline (arrival burst : P → ℤ) : List (Segment P) → Prop
  | nil : Timeline arrival burst []
  | snoc {log : List (Segment P)} {d : Segment P} (h : Timeline arrival burst log)
      (hstart : frontier log ≤ d.start) (hlength : 0 ≤ d.length)
      (harrival : arrival d.process ≤ d.start)
      (hburst : served log d.process + d.length ≤ burst d.process)
      (hidle : frontier log < d.start → d.start = arrival d.process ∧
        ∀ q, arrival q < d.start → served log q = burst q) :
      Timeline arrival burst (log ++ [d])

namespace Timeline

theorem length_nonneg {log : List (Segment P)} (h : Timeline arrival burst log) :
    ∀ d ∈ log, 0 ≤ d.length := by
  induction h with
  | nil => simp
  | snoc _ _ hlength _ _ _ ih =>
    intro e he
    rcases List.mem_append.mp he with he | he
    · exact ih e he
    · exact List.mem_singleton.mp he ▸ hlength

theorem arrival_le {log : List (Segment P)} (h : Timeline arrival burst log) :
    ∀ d ∈ log, arrival d.process ≤ d.start := by
  induction h with
  | nil => simp
  | snoc _ _ _ harrival _ _ ih =>
    intro e he
    rcases List.mem_append.mp he with he | he
    · exact ih e he
    · exact List.mem_singleton.mp he ▸ harrival

theorem stop_le_frontier {log : List (Segment P)} (h : Timeline arrival burst log) :
    ∀ d ∈ log, d.stop ≤ frontier log := by
  induction h with
  | nil => simp
  | @snoc log d _ hstart hlength _ _ _ ih =>
    intro e he
    rw [frontier_snoc]
    rcases List.mem_append.mp he with he | he
    · have := ih e he
      unfold Segment.stop at *
      omega
    · exact (List.mem_singleton.mp he ▸ le_rfl)

theorem pairwise {log : List (Segment P)} (h : Timeline arrival burst log) :
    log.Pairwise fun d e => d.stop ≤ e.start := by
  induction h with
  | nil => exact .nil
  | snoc h hstart _ _ _ _ ih =>
    refine List.pairwise_append.mpr ⟨ih, List.pairwise_singleton .., fun e he e' he' => ?_⟩
    rw [List.mem_singleton.mp he']
    exact (h.stop_le_frontier e he).trans hstart

theorem starts (harr : ∀ p, 0 ≤ arrival p) {log : List (Segment P)}
    (h : Timeline arrival burst log) : (∀ d ∈ log.head?, d.start = arrival d.process) ∧
      log.IsChain fun d e => e.start = max d.stop (arrival e.process) := by
  induction h with
  | nil => exact ⟨by simp, .nil⟩
  | @snoc log d _ hstart _ harrival _ hidle ih =>
    have hnext : d.start = max (frontier log) (arrival d.process) := by
      rcases hstart.eq_or_lt with heq | hlt
      · rw [heq, max_eq_left harrival]
      · have hat := (hidle hlt).1
        rw [hat] at hlt
        rw [hat, max_eq_right hlt.le]
    refine ⟨fun e he => ?_, List.isChain_append.mpr ⟨ih.2, .singleton d, fun x hx y hy => ?_⟩⟩
    · rcases List.eq_nil_or_concat log with rfl | ⟨log, d', rfl⟩
      · obtain rfl := Option.some.inj he
        rw [hnext, frontier_nil, max_eq_right (harr d.process)]
      · refine ih.1 e ?_
        rwa [List.head?_append_of_ne_nil _ (by simp)] at he
    · obtain rfl := Option.some.inj hy
      rw [hnext, frontier, hx]
      rfl

theorem frontier_nonneg (harr : ∀ p, 0 ≤ arrival p) {log : List (Segment P)}
    (h : Timeline arrival burst log) : 0 ≤ frontier log := by
  cases h with
  | nil => exact le_rfl
  | snoc _ _ hlength harrival _ _ =>
    rw [frontier_snoc]
    exact (harr _).trans (harrival.trans (by unfold Segment.stop; omega))

theorem servedBefore_le {log : List (Segment P)} (h : Timeline arrival burst log) (p : P) (u : ℤ) :
    servedBefore log p u ≤ served log p := by
  induction h with
  | nil => simp
  | @snoc log d _ _ hlength _ _ _ ih =>
    rw [servedBefore_snoc, served_snoc]
    have := Segment.before_le hlength u
    split_ifs <;> omega

theorem servedBefore_le_elapsed {log : List (Segment P)} (h : Timeline arrival burst log) (p : P)
    (u : ℤ) : servedBefore log p u ≤ max 0 (min u (frontier log) - arrival p) := by
  induction h with
  | nil => simp
  | @snoc log d _ hstart hlength harrival _ _ ih =>
    rw [servedBefore_snoc, frontier_snoc]
    unfold Segment.before Segment.stop at *
    split_ifs with hp
    · subst hp
      omega
    · omega

theorem servedBefore_of_frontier_le {log : List (Segment P)} (h : Timeline arrival burst log)
    (p : P) {u : ℤ} (hu : frontier log ≤ u) : servedBefore log p u = served log p :=
  servedBefore_eq_served h.length_nonneg fun d hd _ => (h.stop_le_frontier d hd).trans hu

theorem servedBefore_of_le_arrival {log : List (Segment P)} (h : Timeline arrival burst log)
    {p : P} {u : ℤ} (hu : u ≤ arrival p) : servedBefore log p u = 0 :=
  servedBefore_eq_zero fun d hd hp => hu.trans (hp ▸ h.arrival_le d hd)

theorem servedBefore_snoc_of_le {log : List (Segment P)} {d : Segment P} {u : ℤ} (p : P)
    (hu : u ≤ d.start) : servedBefore (log ++ [d]) p u = servedBefore log p u := by
  rw [servedBefore_snoc, Segment.before_of_le hu, ite_self, add_zero]

theorem lt_served_of_busy {log : List (Segment P)} (h : Timeline arrival burst log) {u : ℤ}
    (hu : u ∈ busy log) : ∃ p, arrival p ≤ u ∧ servedBefore log p u < served log p := by
  induction h with
  | nil => simp [busy] at hu
  | @snoc log d hlog hstart hlength harrival _ _ ih =>
    rcases mem_busy_snoc.mp hu with hu | ⟨hlo, hhi⟩
    · obtain ⟨p, hp, hlt⟩ := ih hu
      refine ⟨p, hp, ?_⟩
      rw [servedBefore_snoc, served_snoc]
      have := Segment.before_le hlength u
      split_ifs <;> omega
    · -- the last segment is under way, and its job has a rest of it to come
      refine ⟨d.process, harrival.trans hlo, ?_⟩
      rw [servedBefore_snoc, served_snoc, if_pos rfl, if_pos rfl]
      have hle := hlog.servedBefore_le d.process u
      have : d.before u < d.length := by
        unfold Segment.before Segment.stop at *
        omega
      omega

theorem finished_of_idle {log : List (Segment P)} (h : Timeline arrival burst log) {u : ℤ}
    (hpast : u < frontier log) (hidle : u ∉ busy log) (hu : 0 ≤ u) {p : P} (hp : arrival p ≤ u) :
    servedBefore log p u = burst p := by
  induction h with
  | nil => exact absurd hpast (not_lt.mpr hu)
  | @snoc log d hlog hstart hlength _ _ hgap ih =>
    rw [mem_busy_snoc, not_or] at hidle
    rw [frontier_snoc] at hpast
    by_cases hlt : u < frontier log
    · rw [servedBefore_snoc_of_le p (hlt.le.trans hstart)]
      exact ih hlt hidle.1
    · -- the unit is in the gap before the last segment
      have hbefore : u < d.start := by
        by_contra hge
        exact hidle.2 ⟨not_lt.mp hge, hpast⟩
      have hle : frontier log ≤ u := not_lt.mp hlt
      rw [servedBefore_snoc_of_le p hbefore.le, hlog.servedBefore_of_frontier_le p hle]
      exact (hgap (hle.trans_lt hbefore)).2 p (hp.trans_lt hbefore)

open Classical in
theorem work_succ {log : List (Segment P)} (h : Timeline arrival burst log) (u : ℤ) :
    work log (u + 1) = work log u + if u ∈ busy log then 1 else 0 := by
  induction h with
  | nil => simp [busy]
  | @snoc log d hlog hstart hlength _ _ _ ih =>
    -- the segments do not overlap, so the unit is counted once
    have hcover : u ∈ busy log → u < d.start := by
      rintro ⟨e, he, _, hlt⟩
      exact hlt.trans_le ((hlog.stop_le_frontier e he).trans hstart)
    simp only [work_snoc, mem_busy_snoc, ih]
    unfold Segment.before Segment.stop at *
    by_cases hb : u ∈ busy log
    · have := hcover hb
      simp only [hb, true_or, if_true]
      omega
    · simp only [hb, false_or, if_false]
      split_ifs <;> omega

section Complete

variable [Fintype P] {log log' : List (Segment P)}

/-- The service asked for by the jobs released by `u`. -/
def demand (arrival burst : P → ℤ) (u : ℤ) : ℤ := ∑ p, if arrival p ≤ u then burst p else 0

theorem mem_busy_iff (h : Timeline arrival burst log) (hc : ∀ p, served log p = burst p) {u : ℤ}
    (hu : 0 ≤ u) : u ∈ busy log ↔ work log u < demand arrival burst u := by
  rw [work_eq_sum, demand]
  have hle : ∀ p, servedBefore log p u ≤ if arrival p ≤ u then burst p else 0 := by
    intro p
    split_ifs with hp
    · exact (h.servedBefore_le p u).trans (hc p).le
    · exact (h.servedBefore_of_le_arrival (not_le.mp hp).le).le
  constructor
  · intro hb
    obtain ⟨p, hp, hlt⟩ := h.lt_served_of_busy hb
    refine Finset.sum_lt_sum (fun q _ => hle q) ⟨p, Finset.mem_univ p, ?_⟩
    rw [if_pos hp, ← hc p]
    exact hlt
  · intro hlt
    by_contra hb
    refine absurd hlt (not_lt.mpr (Finset.sum_le_sum fun p _ => ?_))
    split_ifs with hp
    · by_cases hpast : u < frontier log
      · exact (h.finished_of_idle hpast hb hu hp).ge
      · rw [h.servedBefore_of_frontier_le p (not_lt.mp hpast), hc p]
    · exact servedBefore_nonneg log p u

theorem work_of_nonpos (harr : ∀ p, 0 ≤ arrival p) (h : Timeline arrival burst log) {u : ℤ}
    (hu : u ≤ 0) : work log u = 0 := by
  rw [work_eq_sum]
  exact Finset.sum_eq_zero fun p _ => h.servedBefore_of_le_arrival (hu.trans (harr p))

theorem work_unique (harr : ∀ p, 0 ≤ arrival p) (h : Timeline arrival burst log)
    (h' : Timeline arrival burst log') (hc : ∀ p, served log p = burst p)
    (hc' : ∀ p, served log' p = burst p) (u : ℤ) : work log u = work log' u := by
  classical
  rcases le_total u 0 with hu | hu
  · rw [work_of_nonpos harr h hu, work_of_nonpos harr h' hu]
  · induction u, hu using Int.leInduction with
    | base => rw [work_of_nonpos harr h le_rfl, work_of_nonpos harr h' le_rfl]
    | succ u hu ih =>
      simp only [h.work_succ, h'.work_succ, h.mem_busy_iff hc hu, h'.mem_busy_iff hc' hu, ih]

omit [Fintype P] in
theorem busy_nonneg (harr : ∀ p, 0 ≤ arrival p) (h : Timeline arrival burst log) {u : ℤ}
    (hu : u ∈ busy log) : 0 ≤ u := by
  obtain ⟨d, hd, hle, _⟩ := hu
  exact (harr _).trans ((h.arrival_le d hd).trans hle)

theorem busy_unique (harr : ∀ p, 0 ≤ arrival p) (h : Timeline arrival burst log)
    (h' : Timeline arrival burst log') (hc : ∀ p, served log p = burst p)
    (hc' : ∀ p, served log' p = burst p) : busy log = busy log' := by
  ext u
  by_cases hu : 0 ≤ u
  · rw [h.mem_busy_iff hc hu, h'.mem_busy_iff hc' hu, work_unique harr h h' hc hc']
  · exact iff_of_false (fun hb => hu (h.busy_nonneg harr hb)) fun hb => hu (h'.busy_nonneg harr hb)

omit [Fintype P] in
theorem frontier_cases (h : Timeline arrival burst log) :
    frontier log = 0 ∨ (∃ p, frontier log ≤ arrival p) ∨ frontier log - 1 ∈ busy log := by
  induction h with
  | nil => exact .inl rfl
  | @snoc log d _ hstart hlength _ _ hidle ih =>
    rw [frontier_snoc]
    rcases hlength.eq_or_lt with hzero | hpos
    · have hstop : d.stop = d.start := by unfold Segment.stop; omega
      rcases hstart.eq_or_lt with hcont | hgap
      · rw [hstop, ← hcont]
        rcases ih with ih | ih | ih
        · exact .inl ih
        · exact .inr (.inl ih)
        · exact .inr (.inr (mem_busy_snoc.mpr (.inl ih)))
      · exact .inr (.inl ⟨d.process, by rw [hstop]; exact (hidle hgap).1.le⟩)
    · refine .inr (.inr (mem_busy_snoc.mpr (.inr ?_)))
      unfold Segment.stop
      omega

omit [Fintype P] in
theorem frontier_le (harr : ∀ p, 0 ≤ arrival p) (h : Timeline arrival burst log)
    (h' : Timeline arrival burst log') (hb : busy log = busy log')
    (hall' : ∀ p, ∃ d ∈ log', d.process = p) : frontier log ≤ frontier log' := by
  rcases h.frontier_cases with h0 | ⟨p, hp⟩ | hlast
  · rw [h0]
    exact h'.frontier_nonneg harr
  · obtain ⟨d, hd, rfl⟩ := hall' p
    have hstop : d.start ≤ d.stop := by
      have := h'.length_nonneg d hd
      unfold Segment.stop
      omega
    exact hp.trans ((h'.arrival_le d hd).trans (hstop.trans (h'.stop_le_frontier d hd)))
  · rw [hb] at hlast
    obtain ⟨d, hd, _, hlt⟩ := hlast
    have := h'.stop_le_frontier d hd
    omega

theorem frontier_unique (harr : ∀ p, 0 ≤ arrival p) (h : Timeline arrival burst log)
    (h' : Timeline arrival burst log') (hc : ∀ p, served log p = burst p)
    (hc' : ∀ p, served log' p = burst p) (hall : ∀ p, ∃ d ∈ log, d.process = p)
    (hall' : ∀ p, ∃ d ∈ log', d.process = p) : frontier log = frontier log' :=
  have hb := busy_unique harr h h' hc hc'
  (frontier_le harr h h' hb hall').antisymm (frontier_le harr h' h hb.symm hall)

end Complete
end Timeline
end Timeline
end OsLab
