import OsLab.Foundation.Timeline

/-! When one machine that never idles without need is done. The last job ends when the work that is
released from some moment on has been done without a break, and never before the work that is
released from any moment on could be. -/

namespace OsLab

variable {P : Type*} [DecidableEq P] [Fintype P] {arrival burst : P → ℤ} {log : List (Segment P)}

/-- The service given to the jobs released at `r` or later. -/
def servedFrom (arrival : P → ℤ) (log : List (Segment P)) (r : ℤ) : ℤ :=
  ∑ q with r ≤ arrival q, served log q

theorem servedFrom_nil (r : ℤ) : servedFrom arrival [] r = 0 := Finset.sum_eq_zero fun _ _ => rfl

theorem servedFrom_snoc (log : List (Segment P)) (d : Segment P) (r : ℤ) :
    servedFrom arrival (log ++ [d]) r =
      servedFrom arrival log r + if r ≤ arrival d.process then d.length else 0 := by
  unfold servedFrom
  simp only [served_snoc, Finset.sum_add_distrib, Finset.sum_ite_eq, Finset.mem_filter,
    Finset.mem_univ, true_and]

namespace Timeline

omit [Fintype P] in
theorem served_nonneg (h : Timeline arrival burst log) (p : P) : 0 ≤ served log p :=
  (servedBefore_nonneg log p 0).trans (h.servedBefore_le p 0)

theorem servedFrom_nonneg (h : Timeline arrival burst log) (r : ℤ) : 0 ≤ servedFrom arrival log r :=
  Finset.sum_nonneg fun p _ => h.served_nonneg p

theorem add_servedFrom_le (h : Timeline arrival burst log) (r : ℤ) :
    r + servedFrom arrival log r ≤ max r (frontier log) := by
  induction h with
  | nil =>
    rw [servedFrom_nil, add_zero]
    exact le_max_left ..
  | snoc _ hstart hlength harrival _ _ ih =>
    rw [servedFrom_snoc, frontier_snoc, Segment.stop]
    split_ifs with hfrom
    · have hlater := hfrom.trans harrival
      omega
    · omega

/-- What was released before `p` was done by then, and from then on there has been no break. -/
structure BusySince (arrival burst : P → ℤ) (log : List (Segment P)) (p : P) : Prop where
  frontier_le : frontier log ≤ arrival p + servedFrom arrival log (arrival p)
  complete : ∀ q, arrival q < arrival p → served log q = burst q

omit [Fintype P] in
theorem served_snoc_of_complete {d : Segment P} {q : P} (hlength : 0 ≤ d.length)
    (hburst : served log d.process + d.length ≤ burst d.process) (hq : served log q = burst q) :
    served (log ++ [d]) q = burst q := by
  rw [served_snoc]
  split_ifs with hp
  · subst hp
    omega
  · rw [hq, add_zero]

section Snoc

variable {d : Segment P} (hlength : 0 ≤ d.length)
  (hburst : served log d.process + d.length ≤ burst d.process)
include hlength hburst

theorem BusySince.begin (h : Timeline arrival burst log) (hstart : d.start = arrival d.process)
    (hcomplete : ∀ q, arrival q < d.start → served log q = burst q) :
    BusySince arrival burst (log ++ [d]) d.process := by
  constructor
  · have hserved := h.servedFrom_nonneg (arrival d.process)
    rw [frontier_snoc, servedFrom_snoc, if_pos le_rfl, Segment.stop]
    omega
  · intro q hq
    exact served_snoc_of_complete hlength hburst (hcomplete q (hstart ▸ hq))

theorem BusySince.go_on {p : P} (h : BusySince arrival burst log p)
    (hstart : frontier log = d.start) : BusySince arrival burst (log ++ [d]) p := by
  refine ⟨?_, fun q hq => served_snoc_of_complete hlength hburst (h.complete q hq)⟩
  have hle := h.frontier_le
  rw [frontier_snoc, servedFrom_snoc, Segment.stop]
  split_ifs with hfrom
  · omega
  · -- a job that is done already can only be dispatched for no time
    have hdone := h.complete d.process (not_le.mp hfrom)
    omega

end Snoc

theorem exists_busySince (harr : ∀ p, 0 ≤ arrival p) (h : Timeline arrival burst log)
    (hne : log ≠ []) : ∃ p, BusySince arrival burst log p := by
  induction h with
  | nil => exact absurd rfl hne
  | @snoc log d hlog hstart hlength harrival hburst hidle ih =>
    rcases hstart.eq_or_lt with hcont | hgap
    · rcases eq_or_ne log [] with rfl | hlogne
      · -- the first segment starts at 0, before which nothing is released
        rw [frontier_nil] at hcont
        have hzero := harr d.process
        refine ⟨d.process, .begin hlength hburst hlog (by omega) fun q hq => ?_⟩
        have hq' := harr q
        omega
      · obtain ⟨p, hp⟩ := ih hlogne
        exact ⟨p, hp.go_on hlength hburst hcont⟩
    · obtain ⟨hat, hcomplete⟩ := hidle hgap
      exact ⟨d.process, .begin hlength hburst hlog hat hcomplete⟩

section Bound

variable (harr : ∀ p, 0 ≤ arrival p) (h : Timeline arrival burst log) {bound : ℤ}
include harr h

theorem frontier_le_bound (hserved : ∀ p, served log p ≤ burst p) (hbound : 0 ≤ bound)
    (hall : ∀ p, arrival p + ∑ q with arrival p ≤ arrival q, burst q ≤ bound) :
    frontier log ≤ bound := by
  rcases eq_or_ne log [] with rfl | hne
  · exact hbound
  · obtain ⟨p, hp⟩ := h.exists_busySince harr hne
    have hsum : servedFrom arrival log (arrival p) ≤ ∑ q with arrival p ≤ arrival q, burst q :=
      Finset.sum_le_sum fun q _ => hserved q
    exact hp.frontier_le.trans ((add_le_add_right hsum _).trans (hall p))

omit harr in
theorem release_le_frontier (hserved : ∀ p, served log p = burst p) {p : P}
    (hp : ∃ d ∈ log, d.process = p) :
    arrival p + ∑ q with arrival p ≤ arrival q, burst q ≤ frontier log := by
  obtain ⟨d, hd, rfl⟩ := hp
  have hstart := h.arrival_le d hd
  have hlength := h.length_nonneg d hd
  have hstop := h.stop_le_frontier d hd
  have hle := h.add_servedFrom_le (arrival d.process)
  unfold Segment.stop at hstop
  have hsum : servedFrom arrival log (arrival d.process) =
      ∑ q with arrival d.process ≤ arrival q, burst q := Finset.sum_congr rfl fun q _ => hserved q
  rw [hsum] at hle
  omega

end Bound

end Timeline

end OsLab
