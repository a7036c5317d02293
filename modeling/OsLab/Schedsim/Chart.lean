import OsLab.Schedsim.Ticking

/-! How many entries the charts of the tick-stepped schedulers get: one for each process that is
served in one piece, one for each started quantum of a burst, and never more than one for each time
unit. -/

namespace OsLab.Schedsim

open Sched

variable {n : Nat} {w : Workload n}

theorem sum_eq_of_forall_ne {f g : Fin n → Int} {p : Fin n} (h : ∀ r ≠ p, g r = f r) :
    ∑ r, g r = ∑ r, f r + (g p - f p) := by
  have hsingle := Fintype.sum_eq_single (f := fun r => g r - f r) p fun r hr => by
    rw [h r hr, sub_self]
  rw [Finset.sum_sub_distrib] at hsingle
  omega

theorem sum_tick (s : SchedulerState n) (p : Fin n) :
    ∑ r, ((s.tick p).processes r).remainingTime + 1 = ∑ r, (s.processes r).remainingTime := by
  have hsum := sum_eq_of_forall_ne (p := p) (f := fun r => (s.processes r).remainingTime)
    (g := fun r => ((s.tick p).processes r).remainingTime) fun r hr => by
      rw [SchedulerState.tick_of_ne hr]
  rw [SchedulerState.tick_remainingTime] at hsum
  omega

namespace Fcfs

variable {s s' : Fcfs n}

theorem gantt_length_round (hs : s.round = some s')
    (h : s.state.gantt.length = s.completeCounter) :
    s'.state.gantt.length = s'.completeCounter := by
  unfold Fcfs.round at hs
  rw [checkArrivals_eq] at hs
  split_ifs at hs
  split at hs
  · cases hs
    exact h
  · rename_i p s₁ hpick
    cases hs
    have hpicked : s₁.state.gantt.length = s₁.completeCounter := by
      rcases pick_eq_some hpick with ⟨-, rfl⟩ | ⟨-, queue, -, rfl⟩
      · exact h
      · unfold startProcess
        split_ifs <;> exact h
    unfold completeIfDone
    split_ifs
    · exact List.length_append.trans (congrArg (· + 1) hpicked)
    · exact hpicked

theorem reaches_gantt (h : Loop.Reaches round (start w) s) :
    s.state.gantt.length = s.completeCounter :=
  h.invariant (fun s => s.state.gantt.length = s.completeCounter)
    (fun _ _ hs hlength => gantt_length_round hs hlength) rfl

end Fcfs

namespace Sjf

variable {side : MergeSide} {s s' : Sjf n}

theorem gantt_length_round (hs : s.round side = some s')
    (h : s.state.gantt.length = s.completedProcess) :
    s'.state.gantt.length = s'.completedProcess := by
  unfold Sjf.round at hs
  rw [(checkArrivalsHeap_spec side s).2] at hs
  split_ifs at hs
  split at hs
  · cases hs
    exact h
  · rename_i p s₁ hpick
    cases hs
    have hpicked : s₁.state.gantt.length = s₁.completedProcess := by
      rcases pick_eq_some hpick with ⟨-, rfl⟩ | ⟨-, heap, -, rfl⟩
      · exact h
      · exact h
    unfold completeIfDone
    split_ifs
    · exact List.length_append.trans (congrArg (· + 1) hpicked)
    · exact hpicked

theorem reaches_gantt (h : Loop.Reaches (Sjf.round side) (start w) s) :
    s.state.gantt.length = s.completedProcess :=
  h.invariant (fun s => s.state.gantt.length = s.completedProcess)
    (fun _ _ hs hlength => gantt_length_round hs hlength) rfl

end Sjf

namespace Stcf

variable {side : MergeSide} {s s' : Stcf n} {p : Fin n}

def opened (s : Stcf n) : Int := if s.currentPid = pidHolder then 0 else 1

def Charted (w : Workload n) (s : Stcf n) : Prop :=
  s.state.gantt.length + s.opened + ∑ p, (s.state.processes p).remainingTime ≤ ∑ p, w.burstTime p

theorem opened_nonneg (s : Stcf n) : 0 ≤ s.opened := by
  unfold opened
  split_ifs <;> omega

theorem opened_le (s : Stcf n) : s.opened ≤ 1 := by
  unfold opened
  split_ifs <;> omega

theorem switchGantt_length (s : Stcf n) (p : Fin n) :
    ((s.switchGantt p).state.gantt.length : Int) ≤ s.state.gantt.length + s.opened := by
  have hopened := s.opened_nonneg
  unfold switchGantt
  split_ifs with hsame hholder
  · show (s.state.gantt.length : Int) ≤ _
    omega
  · show (s.state.gantt.length : Int) ≤ _
    omega
  · rw [opened, if_neg hholder]
    show ((s.state.gantt ++ [_]).length : Int) ≤ _
    rw [List.length_append, List.length_singleton]
    omega

theorem completeOrReinsert_length (s : Stcf n) (p : Fin n) :
    ((s.completeOrReinsert side p).state.gantt.length : Int) + (s.completeOrReinsert side p).opened ≤
      s.state.gantt.length + 1 := by
  unfold completeOrReinsert
  split_ifs
  · rw [opened, if_pos rfl]
    show ((s.state.gantt ++ [_]).length : Int) + 0 ≤ _
    rw [List.length_append, List.length_singleton]
    omega
  · have hopened := s.opened_le
    show (s.state.gantt.length : Int) + s.opened ≤ _
    omega

theorem completeOrReinsert_remainingTime (s : Stcf n) (p r : Fin n) :
    ((s.completeOrReinsert side p).state.processes r).remainingTime =
      (s.state.processes r).remainingTime := by
  unfold completeOrReinsert
  split_ifs
  · exact s.state.finish_field Process.remainingTime (fun _ _ => rfl) p r
  · rfl

theorem Charted.runUnit (h : Charted w s) (p : Fin n) : Charted w (s.runUnit side p) := by
  unfold Charted at h ⊢
  unfold Stcf.runUnit
  set s₁ := ((s.startProcess p).switchGantt p).tick p with hs₁
  obtain ⟨-, hscan⟩ := checkArrivalsHeap_spec side s₁
  have hlength := @completeOrReinsert_length _ side (s₁.checkArrivalsHeap side) p
  have hswitch := switchGantt_length (s.startProcess p) p
  have hstate : (s₁.checkArrivalsHeap side).state = s₁.state := by rw [hscan]
  have hstart : (s.startProcess p).state.gantt = s.state.gantt ∧
      (s.startProcess p).opened = s.opened := by
    unfold startProcess
    split_ifs <;> exact ⟨rfl, rfl⟩
  have hremaining : ∀ r, (((s.startProcess p).switchGantt p).state.processes r).remainingTime =
      (s.state.processes r).remainingTime := by
    intro r
    rw [(startProcess_switchGantt s p).1, startTable_field Process.remainingTime fun _ _ => rfl]
  have htick := sum_tick ((s.startProcess p).switchGantt p).state p
  simp only [hremaining] at htick
  simp only [completeOrReinsert_remainingTime, hstate] at hlength ⊢
  rw [hstart.1, hstart.2] at hswitch
  have hgantt : s₁.state.gantt = ((s.startProcess p).switchGantt p).state.gantt := rfl
  have hprocesses : s₁.state.processes =
      (((s.startProcess p).switchGantt p).state.tick p).processes := rfl
  rw [hgantt] at hlength
  rw [hprocesses]
  omega

theorem Charted.round (h : Charted w s) (hs : s.round side = some s') : Charted w s' := by
  unfold Stcf.round at hs
  rw [(checkArrivalsHeap_spec side s).2] at hs
  split_ifs at hs
  split at hs
  · cases hs
    exact h
  · rename_i p heap hpick
    cases hs
    refine Charted.runUnit ?_ p
    exact h

theorem reaches_charted (h : Loop.Reaches (Stcf.round side) (start w) s) : Charted w s :=
  h.invariant (Charted w) (fun _ _ hs hcharted => hcharted.round hs) (by
    show ((0 : Nat) : Int) + 0 + ∑ p, w.burstTime p ≤ ∑ p, w.burstTime p
    omega)

end Stcf

namespace Rr

variable {q : Int} {s s' : Rr n} {p : Fin n}

theorem gantt_length_round (hq : q ≤ 0) (hs : s.round q = some s')
    (h : s.state.gantt.length = s.completeCounter ∧
      (s.currentProcess.isSome → s.currentQuantumLeft ≤ 0)) :
    s'.state.gantt.length = s'.completeCounter ∧
      (s'.currentProcess.isSome → s'.currentQuantumLeft ≤ 0) := by
  unfold Rr.round at hs
  rw [checkArrivals_eq] at hs
  split_ifs at hs
  split at hs
  · cases hs
    exact h
  · rename_i p s₁ hpick
    cases hs
    have hpicked : s₁.state.gantt.length = s₁.completeCounter ∧ s₁.currentQuantumLeft ≤ 0 := by
      rcases pick_eq_some hpick with ⟨hrun, rfl⟩ | ⟨-, queue, -, rfl⟩
      · exact ⟨h.1, h.2 (Option.isSome_iff_exists.mpr ⟨p, hrun⟩)⟩
      · exact ⟨h.1, hq⟩
    rw [checkArrivals_eq]
    unfold completeOrPreempt
    split_ifs with hzero hleft
    · exact ⟨List.length_append.trans (congrArg (· + 1) hpicked.1), nofun⟩
    · have hleft : s₁.currentQuantumLeft - 1 = 0 := hleft
      omega
    · exact ⟨hpicked.1, fun _ => show s₁.currentQuantumLeft - 1 ≤ 0 by omega⟩

theorem reaches_gantt (hq : q ≤ 0) (h : Loop.Reaches (Rr.round q) (start w) s) :
    s.state.gantt.length = s.completeCounter :=
  (h.invariant (fun s => s.state.gantt.length = s.completeCounter ∧
    (s.currentProcess.isSome → s.currentQuantumLeft ≤ 0))
    (fun _ _ hs hlength => gantt_length_round hq hs hlength) ⟨rfl, nofun⟩).1

/-- The entries that `p` still needs, that of the slice that has begun among them. -/
def entriesLeft (q : Int) (s : Rr n) (p : Fin n) : Int :=
  if s.currentProcess = some p then
    ((s.state.processes p).remainingTime - s.currentQuantumLeft + q - 1) / q + 1
  else ((s.state.processes p).remainingTime + q - 1) / q

def Account (w : Workload n) (q : Int) (s : Rr n) : Prop :=
  s.state.gantt.length + ∑ p, s.entriesLeft q p = ∑ p, (w.burstTime p + q - 1) / q

structure Charted (w : Workload n) (q : Int) (s : Rr n) : Prop where
  account : Account w q s
  left : ∀ p ∈ s.currentProcess, 1 ≤ s.currentQuantumLeft ∧ s.currentQuantumLeft ≤ q

theorem Account.congr (h : Account w q s) (hgantt : s'.state.gantt = s.state.gantt)
    (hentries : ∀ p, s'.entriesLeft q p = s.entriesLeft q p) : Account w q s' := by
  unfold Account at h ⊢
  rw [hgantt, Finset.sum_congr rfl fun p _ => hentries p]
  exact h

theorem Account.scanned (h : Account w q s) : Account w q s.checkArrivals := by
  rw [checkArrivals_eq]
  exact h

theorem Account.begin (h : Account w q s) (hq : 1 ≤ q) {queue : List (Fin n)}
    (hrun : s.currentProcess = none) :
    Account w q ({ s with queue, currentProcess := some p }.startSlice q p) := by
  refine h.congr rfl fun r => ?_
  have hremaining := startSlice_field (q := q) Process.remainingTime (fun _ _ => rfl)
    { s with queue, currentProcess := some p } p r
  unfold entriesLeft
  rw [hremaining, hrun, if_neg (Option.some_ne_none r).symm]
  show (if some p = some r then (_ - q + q - 1) / q + 1 else _) = _
  split_ifs
  · rw [sub_add_cancel, show ∀ left : Int, left + q - 1 = left - 1 + 1 * q by intro left; omega,
      Int.add_mul_ediv_right _ _ (by omega)]
  · rfl

theorem Account.tick (h : Account w q s) (hrun : s.currentProcess = some p) :
    Account w q (s.tick p) := by
  refine h.congr rfl fun r => ?_
  unfold entriesLeft
  rcases eq_or_ne r p with rfl | hr
  · have hremaining := s.state.tick_remainingTime r
    show (if s.currentProcess = some r then (((s.state.tick r).processes r).remainingTime -
      (s.currentQuantumLeft - 1) + q - 1) / q + 1 else _) = _
    rw [if_pos hrun, if_pos hrun, hremaining, sub_sub_sub_cancel_right]
  · have hne : ¬ s.currentProcess = some r := fun heq => hr (Option.some.inj (heq.symm.trans hrun))
    have hkept := SchedulerState.tick_of_ne hr s.state
    show (if s.currentProcess = some r then _ else
      (((s.state.tick p).processes r).remainingTime + q - 1) / q) = _
    rw [if_neg hne, if_neg hne, hkept]

theorem Account.endSlice (h : Account w q s) (hrun : s.currentProcess = some p)
    (hremaining : ∀ r, (s'.state.processes r).remainingTime = (s.state.processes r).remainingTime)
    (hgantt : s'.state.gantt.length = s.state.gantt.length + 1) (hnone : s'.currentProcess = none)
    (hentry : ((s.state.processes p).remainingTime + q - 1) / q =
      ((s.state.processes p).remainingTime - s.currentQuantumLeft + q - 1) / q) :
    Account w q s' := by
  have hsum := sum_eq_of_forall_ne (p := p) (f := s.entriesLeft q) (g := s'.entriesLeft q)
    fun r hr => by
      have hne : ¬ s.currentProcess = some r := fun heq =>
        hr (Option.some.inj (heq.symm.trans hrun))
      rw [entriesLeft, entriesLeft, hnone, if_neg (Option.some_ne_none r).symm, if_neg hne,
        hremaining]
  have hp : s'.entriesLeft q p + 1 = s.entriesLeft q p := by
    rw [entriesLeft, entriesLeft, hnone, if_neg (Option.some_ne_none p).symm, if_pos hrun,
      hremaining, hentry]
  unfold Account at h ⊢
  rw [hsum, hgantt]
  omega

theorem Account.completeOrPreempt (h : Account w q s) (hrun : s.currentProcess = some p)
    (hleft : 0 ≤ s.currentQuantumLeft) (hlt : s.currentQuantumLeft < q) :
    Charted w q (s.completeOrPreempt p) := by
  unfold Rr.completeOrPreempt
  split_ifs with hzero hquantum
  · refine ⟨h.endSlice hrun ?_ List.length_append rfl ?_, nofun⟩
    · exact s.state.finish_field Process.remainingTime (fun _ _ => rfl) p
    · rw [hzero, Int.ediv_eq_zero_of_lt (by omega) (by omega),
        Int.ediv_eq_zero_of_lt (by omega) (by omega)]
  · refine ⟨h.endSlice hrun (fun _ => rfl) List.length_append rfl ?_, nofun⟩
    rw [hquantum, sub_zero]
  · exact ⟨h, fun _ _ => ⟨by omega, hlt.le⟩⟩

theorem Charted.round (h : Charted w q s) (hq : 1 ≤ q) (hs : s.round q = some s') :
    Charted w q s' := by
  unfold Rr.round at hs
  have hscan : Charted w q s.checkArrivals := ⟨h.account.scanned, by
    rw [checkArrivals_eq]
    exact h.left⟩
  split_ifs at hs
  split at hs
  · cases hs
    exact ⟨hscan.account, hscan.left⟩
  · rename_i p s₁ hpick
    cases hs
    have hpicked : Charted w q s₁ ∧ s₁.currentProcess = some p := by
      rcases pick_eq_some hpick with ⟨hrun, rfl⟩ | ⟨hrun, queue, -, rfl⟩
      · exact ⟨hscan, hrun⟩
      · exact ⟨⟨hscan.account.begin hq hrun, fun _ _ => ⟨hq, le_rfl⟩⟩, rfl⟩
    obtain ⟨hcharted, hrun⟩ := hpicked
    obtain ⟨hpos, hle⟩ := hcharted.left p hrun
    have hticked := (hcharted.account.tick hrun).scanned
    rw [checkArrivals_eq] at hticked ⊢
    refine hticked.completeOrPreempt hrun ?_ ?_
    · show 0 ≤ s₁.currentQuantumLeft - 1
      omega
    · show s₁.currentQuantumLeft - 1 < q
      omega

theorem reaches_charted (hq : 1 ≤ q) (h : Loop.Reaches (Rr.round q) (start w) s) :
    Charted w q s := by
  refine h.invariant (Charted w q) (fun _ _ hs hcharted => hcharted.round hq hs) ⟨?_, nofun⟩
  exact zero_add _

theorem undone_of_ended {s : Rr n} {t : Ticks (Fin n)} (h : Views w s t)
    (hp : t.Placed w.burstTime) (hall : ∀ p, p ∈ t.finished) : s.undone = [] := by
  have hplaced := hp.placed
  have hcard := congrArg Multiset.card hplaced
  have hle : Finset.univ.val ≤ t.finished :=
    (Multiset.le_iff_subset Finset.univ.nodup).mpr fun p _ => hall p
  have hmono := Multiset.card_le_card hle
  rw [Multiset.card_add, Multiset.card_add, h.pending, h.ready, Multiset.coe_card,
    Multiset.coe_card, List.length_append] at hcard
  refine List.eq_nil_of_length_eq_zero ?_
  rw [undone, List.length_append, List.length_append]
  omega

theorem Charted.length_eq (h : Charted w q s) (hq : 1 ≤ q) {t : Ticks (Fin n)} (hviews : Views w s t)
    (hp : t.Placed w.burstTime) (hall : ∀ p, p ∈ t.finished) :
    (s.state.gantt.length : Int) = ∑ p, (w.burstTime p + q - 1) / q := by
  have hundone := undone_of_ended hviews hp hall
  unfold undone at hundone
  have hidle := Option.toList_eq_nil_iff.mp
    (List.append_eq_nil_iff.mp (List.append_eq_nil_iff.mp hundone).1).1
  have hzero : ∑ p, s.entriesLeft q p = 0 := by
    refine Finset.sum_eq_zero fun p _ => ?_
    have hdone : (s.state.processes p).remainingTime = 0 :=
      (congrFun hviews.left p).symm.trans (hp.finished_left p (hall p))
    rw [entriesLeft, hidle, if_neg (Option.some_ne_none p).symm, hdone]
    exact Int.ediv_eq_zero_of_lt (by omega) (by omega)
  have haccount := h.account
  unfold Account at haccount
  rwa [hzero, add_zero] at haccount

end Rr

end OsLab.Schedsim
