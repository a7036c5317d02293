import OsLab.Schedsim.Chart

/-! The chart of the tick-stepped `schedule_rr`: how it cuts the bursts into slices, how many entries
it needs, and how long a process waits for its next slice. -/

namespace OsLab.Schedsim

open Sched

variable {n : Nat} {w : Workload n} {q : Int}

theorem CutInto.length_eq {b : Int} {pieces : List Int} (h : CutInto q b pieces) :
    (pieces.length : Int) = (b + q - 1) / q := by
  obtain ⟨init, last, rfl, hinit, hpos, hle, hsum⟩ := h
  have hwhole : init.sum = init.length * q := by
    have hreplicate := List.eq_replicate_iff.mpr ⟨rfl, hinit⟩
    rw [hreplicate, List.sum_replicate, nsmul_eq_mul, List.length_replicate]
  rw [List.sum_append, List.sum_singleton, hwhole] at hsum
  have hsplit : b + q - 1 = last - 1 + (init.length + 1) * q := by
    rw [← hsum]
    ring
  rw [hsplit, Int.add_mul_ediv_right _ _ (by omega), Int.ediv_eq_zero_of_lt (by omega) (by omega),
    List.length_append, List.length_singleton]
  push_cast
  ring

structure ServedInSlices (w : Workload n) (q : Int) (slices : List (Segment (Fin n)))
    (s : SchedulerState n) : Prop where
  gantt : s.gantt = slices.map (sliceEntry w)
  cut : ∀ p, CutInto q (w.burstTime p) ((own slices p).map Segment.length)
  turns : EachTurn (NextSlice w q) slices
  fair : Rotation.Fair (slices.map Segment.process)

theorem scheduleRr_slices (hw : w.Nonneg) (hburst : ∀ p, 1 ≤ w.burstTime p) (hq : 1 ≤ q) {fuel : Nat}
    {s : SchedulerState n} (hrun : scheduleRr w q fuel = some s) :
    ∃ slices, ServedInSlices w q slices s := by
  obtain ⟨a, hloop, rfl⟩ := Option.map_eq_some_iff.mp hrun
  obtain ⟨hreach, hend⟩ := Loop.run_reaches hloop
  obtain ⟨slices, hsliced, -⟩ := Rr.reaches_sliced hw hburst hq hreach
  obtain ⟨t, hviews, hplaced⟩ := (Rr.ticking w q).reaches_views (Rr.views_start w) hreach
  have hundone := Rr.undone_of_ended hviews hplaced
    (hplaced.mem_finished (((Rr.ticking w q).ended hviews).mp hend))
  have hturns := hsliced.rotation.fair
  have hidle : a.currentProcess.toList = [] := by
    rw [Rr.undone, List.append_assoc] at hundone
    exact (List.append_eq_nil_iff.mp hundone).1
  rw [hidle, List.append_nil] at hturns
  refine ⟨slices, hsliced.gantt, fun p => hsliced.cut p ?_, hsliced.turns, hturns⟩
  rw [hundone]
  exact List.not_mem_nil

theorem NextSlice.pairwise {slices : List (Segment (Fin n))} (h : EachTurn (NextSlice w q) slices) :
    (slices.Pairwise fun d e => d.stop ≤ e.start) ∧ ∀ d ∈ slices, d.stop ≤ frontier slices := by
  induction slices using List.reverseRecOn with
  | nil => exact ⟨.nil, nofun⟩
  | append_singleton slices d ih =>
    obtain ⟨hslices, hnext⟩ := eachTurn_concat.mp h
    obtain ⟨hpairwise, hle⟩ := ih hslices
    have hpos := hnext.pos
    have hstart := hnext.frontier_le
    refine ⟨List.pairwise_append.mpr ⟨hpairwise, List.pairwise_singleton .., fun e he e' he' => ?_⟩,
      fun e he => ?_⟩
    · rw [List.mem_singleton.mp he']
      exact (hle e he).trans hstart
    · rw [frontier_snoc]
      rcases List.mem_append.mp he with he | he
      · have := hle e he
        unfold Segment.stop at *
        omega
      · exact (List.mem_singleton.mp he ▸ le_rfl)

theorem scheduleRr_returns (hburst : ∀ p, 1 ≤ w.burstTime p) (q : Int) :
    ∃ fuel s, scheduleRr w q fuel = some s := by
  obtain ⟨fuel, s, hrun⟩ := ((Rr.ticking w q).terminates_iff (Rr.views_start w)).mpr hburst
  exact ⟨fuel, s.state, by rw [scheduleRr, hrun, Option.map_some]⟩

theorem ServedInSlices.gantt_length {slices : List (Segment (Fin n))} {s : SchedulerState n}
    (h : ServedInSlices w q slices s) :
    (s.gantt.length : Int) = ∑ p, (w.burstTime p + q - 1) / q := by
  have hlength := sum_map_own (fun _ => 1) slices
  simp only [List.map_const', List.sum_replicate, smul_eq_mul, mul_one] at hlength
  rw [h.gantt, List.length_map, hlength, Nat.cast_sum]
  refine Finset.sum_congr rfl fun p _ => ?_
  rw [← (h.cut p).length_eq, List.length_map]

/-- The chart has one entry for every started quantum of every burst, and all of a burst is in the
entries of its process: whole quanta, and what is left over at the end. -/
theorem scheduleRr_chart (hw : w.Nonneg) (hburst : ∀ p, 1 ≤ w.burstTime p) (hq : 1 ≤ q)
    (hchart : ∑ p, (w.burstTime p + q - 1) / q ≤ maxGanttEntries) :
    (∃ fuel s, scheduleRr w q fuel = some s) ∧ ∀ fuel s, scheduleRr w q fuel = some s →
      s.gantt.length ≤ maxGanttEntries ∧
      (s.gantt.length : Int) = ∑ p, (w.burstTime p + q - 1) / q ∧
      ∃ slices, s.gantt = slices.map (sliceEntry w) ∧ (slices.Pairwise fun d e => d.stop ≤ e.start) ∧
        ∀ p, CutInto q (w.burstTime p) ((own slices p).map Segment.length) := by
  refine ⟨scheduleRr_returns hburst q, fun fuel s hrun => ?_⟩
  obtain ⟨slices, h⟩ := scheduleRr_slices hw hburst hq hrun
  have hlength := h.gantt_length
  exact ⟨Int.ofNat_le.mp (hlength.trans_le hchart), hlength, slices, h.gantt,
    (NextSlice.pairwise h.turns).1, h.cut⟩

theorem scheduleRr_chart_sample :
    (∃ fuel s, scheduleRr sampleWorkload 2 fuel = some s) ∧
      ∀ fuel s, scheduleRr sampleWorkload 2 fuel = some s →
        s.gantt.length ≤ maxGanttEntries ∧
        (s.gantt.length : Int) = ∑ p, (sampleWorkload.burstTime p + 2 - 1) / 2 ∧
        ∃ slices, s.gantt = slices.map (sliceEntry sampleWorkload) ∧
          (slices.Pairwise fun d e => d.stop ≤ e.start) ∧
          ∀ p, CutInto 2 (sampleWorkload.burstTime p) ((own slices p).map Segment.length) :=
  scheduleRr_chart sampleWorkload_nonneg (by decide) (by decide) (by decide)

/-- From its arrival to its first slice, and from one slice to the next, a process waits for at most
a quantum of every other process, and between two of its slices no other process has more than one.
-/
theorem scheduleRr_fair (hw : w.Nonneg) (hburst : ∀ p, 1 ≤ w.burstTime p) (hq : 1 ≤ q)
    (hchart : ∑ p, (w.burstTime p + q - 1) / q ≤ maxGanttEntries) {fuel : Nat}
    {s : SchedulerState n} (hrun : scheduleRr w q fuel = some s) :
    s.gantt.length ≤ maxGanttEntries ∧ ∃ slices, s.gantt = slices.map (sliceEntry w) ∧
      (∀ before d after, slices = before ++ d :: after → entered w before d.process ≤ d.start ∧
        d.start ≤ entered w before d.process + (n - 1) * q) ∧
      ∀ before p between after,
        slices.map Segment.process = before ++ p :: (between ++ p :: after) → p ∉ between →
          between.Nodup := by
  obtain ⟨slices, h⟩ := scheduleRr_slices hw hburst hq hrun
  refine ⟨Int.ofNat_le.mp (h.gantt_length.trans_le hchart), slices, h.gantt,
    fun before d after hsplit => ?_, h.fair⟩
  have hnext := h.turns before d after hsplit
  exact ⟨hnext.entered_le, hnext.le⟩

theorem scheduleRr_fair_sample : ∃ fuel s, scheduleRr sampleWorkload 2 fuel = some s ∧
    s.gantt.length ≤ maxGanttEntries ∧ ∃ slices, s.gantt = slices.map (sliceEntry sampleWorkload) ∧
      (∀ before d after, slices = before ++ d :: after →
        entered sampleWorkload before d.process ≤ d.start ∧
        d.start ≤ entered sampleWorkload before d.process + ((2 : Nat) - 1) * 2) ∧
      ∀ before p between after,
        slices.map Segment.process = before ++ p :: (between ++ p :: after) → p ∉ between →
          between.Nodup := by
  obtain ⟨fuel, s, hrun⟩ := scheduleRr_returns (w := sampleWorkload) (by decide) 2
  exact ⟨fuel, s, hrun,
    scheduleRr_fair sampleWorkload_nonneg (by decide) (by decide) (by decide) hrun⟩

end OsLab.Schedsim
