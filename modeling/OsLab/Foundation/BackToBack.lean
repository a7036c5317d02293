import Mathlib.Tactic.Ring
import OsLab.Foundation.Timeline

/-! Jobs that are all released at one time. Run one right after the other, shortest first, they
wait no longer altogether than in any other order, and no longer than on any machine that serves
one of them at a time. Of every two jobs one waits for the other, in the best case for the shorter,
and the sum of these least waits is what the shortest-first order attains. -/

namespace OsLab

variable {P : Type*} {burst : P → ℤ} {release : ℤ}

/-- What the jobs of the list wait altogether when they run back to back from `now` on. -/
def backToBackWaiting (burst : P → ℤ) (release : ℤ) : ℤ → List P → ℤ
  | _, [] => 0
  | now, p :: l => now - release + backToBackWaiting burst release (now + burst p) l

def pairMin (burst : P → ℤ) : List P → ℤ
  | [] => 0
  | p :: l => (l.map fun q => min (burst p) (burst q)).sum + pairMin burst l

theorem backToBackWaiting_add (now d : ℤ) (l : List P) :
    backToBackWaiting burst release (now + d) l =
      backToBackWaiting burst release now l + d * l.length := by
  induction l generalizing now with
  | nil => simp [backToBackWaiting]
  | cons p l ih =>
    simp only [backToBackWaiting, List.length_cons]
    rw [add_right_comm now d (burst p), ih]
    push_cast
    ring

theorem backToBackWaiting_concat (now : ℤ) (l : List P) (p : P) :
    backToBackWaiting burst release now (l ++ [p]) =
      backToBackWaiting burst release now l + (now + (l.map burst).sum - release) := by
  induction l generalizing now with
  | nil => simp [backToBackWaiting]
  | cons q l ih =>
    simp only [List.cons_append, backToBackWaiting, ih, List.map_cons, List.sum_cons]
    ring

theorem backToBackWaiting_cons (p : P) (l : List P) :
    backToBackWaiting burst release release (p :: l) =
      burst p * l.length + backToBackWaiting burst release release l := by
  rw [backToBackWaiting, backToBackWaiting_add]
  ring

theorem pairMin_perm {l l' : List P} (h : l.Perm l') : pairMin burst l = pairMin burst l' := by
  induction h with
  | nil => rfl
  | cons p h ih => rw [pairMin, pairMin, ih, (h.map _).sum_eq]
  | swap p q l =>
    simp only [pairMin, List.map_cons, List.sum_cons, min_comm (burst p) (burst q)]
    ring
  | trans _ _ ih ih' => exact ih.trans ih'

theorem pairMin_le_backToBackWaiting (l : List P) :
    pairMin burst l ≤ backToBackWaiting burst release release l := by
  induction l with
  | nil => exact le_rfl
  | cons p l ih =>
    rw [pairMin, backToBackWaiting_cons]
    have hle : (l.map fun q => min (burst p) (burst q)).sum ≤ (l.map fun _ => burst p).sum :=
      List.sum_le_sum fun q _ => min_le_left _ _
    rw [List.map_const', List.sum_replicate, nsmul_eq_mul, mul_comm] at hle
    exact add_le_add hle ih

theorem backToBackWaiting_of_sorted {l : List P}
    (h : l.Pairwise fun p q => burst p ≤ burst q) :
    backToBackWaiting burst release release l = pairMin burst l := by
  induction l with
  | nil => rfl
  | cons p l ih =>
    obtain ⟨hfirst, hrest⟩ := List.pairwise_cons.mp h
    rw [pairMin, backToBackWaiting_cons, ih hrest]
    have heq : (l.map fun q => min (burst p) (burst q)) = l.map fun _ => burst p :=
      List.map_congr_left fun q hq => min_eq_left (hfirst q hq)
    rw [heq, List.map_const', List.sum_replicate, nsmul_eq_mul, mul_comm]

theorem pairMin_le_sum {wait : P → P → ℤ} {l : List P} (hnodup : l.Nodup)
    (hself : ∀ p, 0 ≤ wait p p)
    (hpair : ∀ p q, p ≠ q → min (burst p) (burst q) ≤ wait p q + wait q p) :
    pairMin burst l ≤ (l.map fun p => (l.map (wait p)).sum).sum := by
  induction l with
  | nil => exact le_rfl
  | cons p l ih =>
    obtain ⟨hp, hrest⟩ := List.nodup_cons.mp hnodup
    have hmin : (l.map fun q => min (burst p) (burst q)).sum ≤
        (l.map fun q => wait p q + wait q p).sum :=
      List.sum_le_sum fun q hq => hpair p q fun hpq => hp (hpq ▸ hq)
    have hsplit : ((p :: l).map fun r => ((p :: l).map (wait r)).sum).sum =
        wait p p + (l.map fun q => wait p q + wait q p).sum +
          (l.map fun r => (l.map (wait r)).sum).sum := by
      simp only [List.map_cons, List.sum_cons, List.sum_map_add]
      ring
    rw [hsplit, pairMin]
    have hih := ih hrest
    have hpp := hself p
    linarith

namespace Timeline

variable [DecidableEq P] {arrival : P → ℤ} {log : List (Segment P)}

theorem work_le (h : Timeline arrival burst log) (harrival : ∀ p, release ≤ arrival p) (u : ℤ) :
    work log u ≤ max 0 (min u (frontier log) - release) := by
  induction h with
  | nil => exact le_max_left ..
  | @snoc log d _ hstart hlength harrived _ _ ih =>
    have hreleased := (harrival d.process).trans harrived
    rw [work_snoc, frontier_snoc]
    unfold Segment.before Segment.stop
    omega

theorem served_others_le [Fintype P] (h : Timeline arrival burst log)
    (harrival : ∀ p, release ≤ arrival p) {p : P} {u : ℤ} (hrelease : release ≤ u)
    (hfinished : servedBefore log p u = burst p) {l : List P} (hnodup : l.Nodup)
    (hall : ∀ q, q ∈ l) :
    (l.map fun q => if q = p then 0 else servedBefore log q u).sum ≤ u - release - burst p := by
  have hwork : work log u ≤ u - release := by
    have hle := h.work_le harrival u
    omega
  have hsum : work log u = (l.map fun q => servedBefore log q u).sum := by
    have huniv : l.toFinset = Finset.univ := Finset.eq_univ_of_forall fun q =>
      List.mem_toFinset.mpr (hall q)
    rw [work_eq_sum, ← huniv, List.sum_toFinset _ hnodup]
  have hsplit : (l.map fun q => servedBefore log q u).sum =
      (l.map fun q => if q = p then 0 else servedBefore log q u).sum +
        (l.map fun q => if q = p then servedBefore log p u else 0).sum := by
    rw [← List.sum_map_add]
    congr 1
    refine List.map_congr_left fun q _ => ?_
    split_ifs with hq
    · rw [hq, zero_add]
    · rw [add_zero]
  have hone : (l.map fun q => if q = p then servedBefore log p u else 0).sum =
      servedBefore log p u := by
    rw [List.sum_map_ite_eq, List.count_eq_one_of_mem hnodup (hall p), one_nsmul]
    simp
  rw [hsum, hsplit, hone, hfinished] at hwork
  linarith

theorem pairMin_le [Fintype P] (h : Timeline arrival burst log)
    (harrival : ∀ p, release ≤ arrival p)
    (hserved : ∀ p, served log p = burst p) {finish : P → ℤ} (hrelease : ∀ p, release ≤ finish p)
    (hfinish : ∀ d ∈ log, d.stop ≤ finish d.process) {l : List P} (hnodup : l.Nodup)
    (hall : ∀ p, p ∈ l) :
    pairMin burst l ≤ (l.map fun p => finish p - release - burst p).sum := by
  have hdone : ∀ p u, finish p ≤ u → servedBefore log p u = burst p := by
    intro p u hu
    rw [servedBefore_eq_served h.length_nonneg fun d hd hp => ?_, hserved p]
    exact (hp ▸ hfinish d hd : d.stop ≤ finish p).trans hu
  have hwait : pairMin burst l ≤ (l.map fun p => (l.map fun q =>
      if q = p then 0 else servedBefore log q (finish p)).sum).sum := by
    refine pairMin_le_sum hnodup (fun p => by simp) fun p q hpq => ?_
    -- the one of the two that finishes later has waited for all of the other
    rw [if_neg hpq.symm, if_neg hpq]
    rcases le_total (finish p) (finish q) with hle | hle
    · rw [hdone p _ hle]
      exact (min_le_left _ _).trans (le_add_of_nonneg_left (servedBefore_nonneg log q _))
    · rw [hdone q _ hle]
      exact (min_le_right _ _).trans (le_add_of_nonneg_right (servedBefore_nonneg log p _))
  refine hwait.trans (List.sum_le_sum fun p _ => ?_)
  exact h.served_others_le harrival (hrelease p) (hdone p _ le_rfl) hnodup hall

theorem backToBack (h : Timeline arrival burst log) (hrelease : 0 ≤ release)
    (harrival : ∀ p, arrival p = release) (hfull : ∀ d ∈ log, d.length = burst d.process) :
    (log.map fun d => d.start - release).sum =
      backToBackWaiting burst release release (log.map Segment.process) := by
  have hgo : (log = [] ∨ frontier log = release + ((log.map Segment.process).map burst).sum ∧
        release ≤ frontier log) ∧
      (log.map fun d => d.start - release).sum =
        backToBackWaiting burst release release (log.map Segment.process) := by
    induction h with
    | nil => exact ⟨.inl rfl, rfl⟩
    | @snoc log d h hstart hlength harrived hburst hidle ih =>
      obtain ⟨hfrontier, hsum⟩ := ih fun e he => hfull e (List.mem_append_left _ he)
      have hd := hfull d (by simp)
      have hreleased : release ≤ d.start := (harrival d.process).symm.le.trans harrived
      have hstarts : d.start = release + ((log.map Segment.process).map burst).sum := by
        rcases hfrontier with rfl | ⟨hfrontier, hle⟩
        · -- the first segment starts at the release, the others where the one before stops
          rw [frontier_nil] at hstart hidle
          rcases hstart.eq_or_lt with heq | hlt
          · simp only [List.map_nil, List.sum_nil, add_zero]
            omega
          · rw [(hidle hlt).1, harrival]
            simp
        · rcases hstart.eq_or_lt with heq | hlt
          · rw [← heq, hfrontier]
          · have := (hidle hlt).1
            rw [harrival] at this
            omega
      refine ⟨.inr ⟨?_, ?_⟩, ?_⟩
      · simp only [frontier_snoc, Segment.stop, List.map_append, List.map_cons, List.map_nil,
          List.sum_append, List.sum_cons, List.sum_nil, hstarts, hd]
        ring
      · rw [frontier_snoc, Segment.stop]
        omega
      · simp only [List.map_append, List.map_cons, List.map_nil, List.sum_append, List.sum_cons,
          List.sum_nil, backToBackWaiting_concat, hsum, hstarts]
        ring
  exact hgo.2

end Timeline

end OsLab
