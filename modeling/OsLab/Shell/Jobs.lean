import OsLab.Foundation.Loop
import OsLab.Foundation.SwapRemove
import OsLab.Shell.Command

/-! The background jobs of the shell: the table of `interpreter.c`, the children it is about, and
the loop of `cleanup_background_jobs`. -/

namespace OsLab.Shell

abbrev maxBgJobs : Nat := 128

abbrev Pid := Nat

structure BackgroundJob where
  pid : Pid
  command : Command
deriving DecidableEq, Repr

/-- `bgJobs` is `bg_jobs` up to `total_bg_job_counter`. `children` are the processes that were
forked for background commands and that have not been reaped. -/
structure Jobs where
  bgJobs : List BackgroundJob
  children : List Pid

namespace Jobs

def empty : Jobs := ⟨[], []⟩

def pids (t : Jobs) : List Pid := t.bgJobs.map BackgroundJob.pid

/-- The child `pid` is there for a background command. -/
def add (t : Jobs) (pid : Pid) (command : Command) : Jobs :=
  if t.bgJobs.length < maxBgJobs then ⟨t.bgJobs ++ [⟨pid, command⟩], pid :: t.children⟩
  else ⟨t.bgJobs, pid :: t.children⟩

@[simp] theorem children_add (t : Jobs) (pid : Pid) (command : Command) :
    (t.add pid command).children = pid :: t.children := by
  unfold add
  split_ifs <;> rfl

end Jobs

/-- `waitpid` with WNOHANG is positive for a child that has finished, and reaps it; else `none`. -/
def waitpid (finished : Pid → Bool) (children : List Pid) (pid : Pid) : Option (List Pid) :=
  if finished pid ∧ pid ∈ children then some (children.erase pid) else none

/-- Where the loop of `cleanup_background_jobs` is, with the pids it has polled. -/
structure Cleanup where
  i : Nat
  table : Jobs
  polled : List Pid

def cleanupRound (finished : Pid → Bool) (c : Cleanup) : Option Cleanup :=
  match c.table.bgJobs[c.i]? with
  | none => none
  | some job =>
    match waitpid finished c.table.children job.pid with
    | some children =>
      some ⟨c.i, ⟨swapRemove c.table.bgJobs c.i, children⟩, c.polled ++ [job.pid]⟩
    | none => some ⟨c.i + 1, c.table, c.polled ++ [job.pid]⟩

def cleanup (finished : Pid → Bool) (t : Jobs) : Cleanup :=
  Loop.advance (cleanupRound finished) t.bgJobs.length ⟨0, t, []⟩

def cleanupBackgroundJobs (finished : Pid → Bool) (t : Jobs) : Jobs := (cleanup finished t).table

namespace Jobs

structure Tracked (t : Jobs) : Prop where
  pids_nodup : t.pids.Nodup
  children_nodup : t.children.Nodup
  child : ∀ pid ∈ t.pids, pid ∈ t.children

def Accounted (t : Jobs) : Prop :=
  (∀ pid ∈ t.children, t.pids.count pid = 1) ∧ t.bgJobs.length ≤ maxBgJobs

instance : DecidablePred Accounted := fun _ => inferInstanceAs (Decidable (_ ∧ _))

theorem Tracked.accounted_iff {t : Jobs} (h : t.Tracked) :
    t.Accounted ↔ (∀ pid ∈ t.children, pid ∈ t.pids) ∧ t.bgJobs.length ≤ maxBgJobs := by
  refine and_congr_left fun _ => forall₂_congr fun pid _ => ?_
  rw [h.pids_nodup.count]
  simp

theorem Tracked.length_le {t : Jobs} (h : t.Tracked) (hall : t.Accounted) :
    t.children.length ≤ maxBgJobs := by
  obtain ⟨hchildren, hlen⟩ := h.accounted_iff.mp hall
  have hsub : t.children.length ≤ t.pids.length :=
    (List.subperm_of_subset h.children_nodup hchildren).length_le
  rw [pids, List.length_map] at hsub
  exact hsub.trans hlen

theorem pids_perm {t t' : Jobs} {job : BackgroundJob} (h : t.bgJobs.Perm (job :: t'.bgJobs)) :
    t.pids.Perm (job.pid :: t'.pids) := h.map BackgroundJob.pid

theorem Tracked.remove {t t' : Jobs} {job : BackgroundJob} (h : t.Tracked)
    (hjobs : t.bgJobs.Perm (job :: t'.bgJobs)) (hchildren : t'.children = t.children.erase job.pid) :
    t'.Tracked := by
  have hpids := pids_perm hjobs
  obtain ⟨hnew, hnodup⟩ := List.nodup_cons.mp (hpids.nodup_iff.mp h.pids_nodup)
  refine ⟨hnodup, hchildren ▸ h.children_nodup.erase _, fun pid hpid => ?_⟩
  rw [hchildren]
  have hold : pid ∈ t.pids := hpids.mem_iff.mpr (List.mem_cons_of_mem _ hpid)
  exact (List.mem_erase_of_ne (ne_of_mem_of_not_mem hpid hnew)).mpr (h.child pid hold)

theorem Tracked.children_remove {t t' : Jobs} {job : BackgroundJob} (h : t.Tracked)
    (hjobs : t.bgJobs.Perm (job :: t'.bgJobs)) (hchildren : t'.children = t.children.erase job.pid)
    (hall : ∀ pid ∈ t.children, pid ∈ t.pids) : ∀ pid ∈ t'.children, pid ∈ t'.pids := by
  intro pid hpid
  rw [hchildren, h.children_nodup.mem_erase_iff] at hpid
  have hmem := (pids_perm hjobs).mem_iff.mp (hall pid hpid.2)
  exact (List.mem_cons.mp hmem).resolve_left hpid.1

end Jobs

section Cleanup

variable {finished : Pid → Bool} {c c' : Cleanup} {t : Jobs}

theorem waitpid_eq_some {children children' : List Pid} {pid : Pid} :
    waitpid finished children pid = some children' ↔
      (finished pid = true ∧ pid ∈ children) ∧ children.erase pid = children' := by
  rw [waitpid, Option.ite_none_right_eq_some, Option.some_inj]

theorem cleanupRound_cases (hs : cleanupRound finished c = some c') :
    ∃ job, c.table.bgJobs[c.i]? = some job ∧ c'.polled = c.polled ++ [job.pid] ∧
      ((∃ children, waitpid finished c.table.children job.pid = some children ∧ c'.i = c.i ∧
          c'.table = ⟨swapRemove c.table.bgJobs c.i, children⟩) ∨
        (waitpid finished c.table.children job.pid = none ∧ c'.i = c.i + 1 ∧
          c'.table = c.table)) := by
  unfold cleanupRound at hs
  split at hs
  · cases hs
  · rename_i job hjob
    refine ⟨job, hjob, ?_⟩
    split at hs
    · rename_i children hwait
      cases hs
      exact ⟨rfl, .inl ⟨children, hwait, rfl, rfl⟩⟩
    · rename_i hwait
      cases hs
      exact ⟨rfl, .inr ⟨hwait, rfl, rfl⟩⟩

theorem cleanupRound_eq_none (h : cleanupRound finished c = none) :
    c.table.bgJobs.length ≤ c.i := by
  unfold cleanupRound at h
  split at h
  · rename_i hjob
    exact List.getElem?_eq_none_iff.mp hjob
  · split at h <;> cases h

theorem cleanup_ended (finished : Pid → Bool) (t : Jobs) :
    cleanupRound finished (cleanup finished t) = none := by
  refine Loop.advance_ended (fun c => c.table.bgJobs.length - c.i) ?_ (Nat.le_refl _)
  intro c c' hs
  obtain ⟨job, hjob, _, ⟨children, _, hi, htable⟩ | ⟨_, hi, htable⟩⟩ := cleanupRound_cases hs
  · have hlen := (perm_swapRemove hjob).length_eq
    have hlt := (List.getElem?_eq_some_iff.mp hjob).1
    rw [List.length_cons] at hlen
    simp only [hi, htable]
    omega
  · have hlt := (List.getElem?_eq_some_iff.mp hjob).1
    simp only [hi, htable]
    omega

/-- Between the rounds: what has been passed stays, and no unfinished job is lost. -/
structure Cleaning (finished : Pid → Bool) (t : Jobs) (c : Cleanup) : Prop where
  tracked : c.table.Tracked
  passed : ∀ job ∈ c.table.bgJobs.take c.i, finished job.pid = false
  kept : (c.table.bgJobs.filter fun job => !finished job.pid).Perm
    (t.bgJobs.filter fun job => !finished job.pid)
  children : (∀ pid ∈ t.children, pid ∈ t.pids) → ∀ pid ∈ c.table.children, pid ∈ c.table.pids

theorem Cleaning.round (hs : cleanupRound finished c = some c') (h : Cleaning finished t c) :
    Cleaning finished t c' := by
  obtain ⟨job, hjob, _, ⟨children, hwait, hi, htable⟩ | ⟨hwait, hi, htable⟩⟩ := cleanupRound_cases hs
  · obtain ⟨⟨hfinished, _⟩, rfl⟩ := waitpid_eq_some.mp hwait
    have hperm : c.table.bgJobs.Perm (job :: c'.table.bgJobs) := htable ▸ perm_swapRemove hjob
    have hchildren : c'.table.children = c.table.children.erase job.pid := by rw [htable]
    have hfilter := hperm.filter fun job => !finished job.pid
    rw [List.filter_cons_of_neg (by simp [hfinished])] at hfilter
    refine ⟨h.tracked.remove hperm hchildren, ?_, hfilter.symm.trans h.kept, fun hall =>
      h.tracked.children_remove hperm hchildren (h.children hall)⟩
    rw [htable, hi, take_swapRemove (List.getElem?_eq_some_iff.mp hjob).1]
    exact h.passed
  · have hchild : job.pid ∈ c.table.children :=
      h.tracked.child _ (List.mem_map_of_mem (List.mem_of_getElem? hjob))
    have hunfinished : finished job.pid = false := by
      simpa [waitpid, hchild] using hwait
    refine ⟨htable ▸ h.tracked, ?_, htable ▸ h.kept, htable ▸ h.children⟩
    rw [htable, hi, List.take_add_one, hjob]
    intro job' hjob'
    rcases List.mem_append.mp hjob' with hpassed | hpolled
    · exact h.passed job' hpassed
    · obtain rfl := Option.some.inj (Option.mem_toList.mp hpolled)
      exact hunfinished

theorem cleanupBackgroundJobs_unfinished (t : Jobs) :
    cleanupBackgroundJobs (fun _ => false) t = t := by
  refine (Loop.reaches_advance _ _ _).invariant (fun c : Cleanup => c.table = t)
    (fun c c' hs hc => ?_) rfl
  obtain ⟨_, _, _, ⟨_, hwait, _⟩ | ⟨_, _, htable⟩⟩ := cleanupRound_cases hs
  · exact absurd (waitpid_eq_some.mp hwait).1.1 Bool.false_ne_true
  · rw [htable, hc]

theorem cleaning (finished : Pid → Bool) (h : t.Tracked) :
    Cleaning finished t (cleanup finished t) :=
  (Loop.reaches_advance _ _ _).invariant (Cleaning finished t) (fun _ _ hs hc => hc.round hs)
    ⟨h, by simp, .refl _, fun hall => hall⟩

theorem Jobs.Tracked.cleanup (finished : Pid → Bool) (h : t.Tracked) :
    (cleanupBackgroundJobs finished t).Tracked := (cleaning finished h).tracked

theorem cleanup_perm (finished : Pid → Bool) (h : t.Tracked) :
    (cleanupBackgroundJobs finished t).bgJobs.Perm
      (t.bgJobs.filter fun job => !finished job.pid) := by
  have hclean := cleaning finished h
  have hpassed := hclean.passed
  rw [List.take_of_length_le (cleanupRound_eq_none (cleanup_ended finished t))] at hpassed
  refine .trans (.of_eq ?_) hclean.kept
  exact (List.filter_eq_self.mpr fun job hjob => by rw [hpassed job hjob, Bool.not_false]).symm

theorem cleanup_length (finished : Pid → Bool) (h : t.Tracked) :
    (cleanupBackgroundJobs finished t).bgJobs.length =
      t.bgJobs.countP fun job => !finished job.pid := by
  rw [(cleanup_perm finished h).length_eq, List.countP_eq_length_filter]

theorem cleanup_length_le (finished : Pid → Bool) (h : t.Tracked) :
    (cleanupBackgroundJobs finished t).bgJobs.length ≤ t.bgJobs.length :=
  (cleanup_length finished h).trans_le List.countP_le_length

theorem Jobs.Tracked.cleanup_accounted (finished : Pid → Bool) (h : t.Tracked)
    (hall : t.Accounted) : (cleanupBackgroundJobs finished t).Accounted := by
  obtain ⟨hchildren, hlen⟩ := h.accounted_iff.mp hall
  exact (h.cleanup finished).accounted_iff.mpr
    ⟨(cleaning finished h).children hchildren, (cleanup_length_le finished h).trans hlen⟩

end Cleanup

section Polling

variable {finished : Pid → Bool} {c c' : Cleanup} {t : Jobs}

/-- The answer of `waitpid` about a job is positive. -/
def Jobs.Reaped (finished : Pid → Bool) (t : Jobs) (job : BackgroundJob) : Prop :=
  (waitpid finished t.children job.pid).isSome = true

instance (finished : Pid → Bool) (t : Jobs) : DecidablePred (t.Reaped finished) :=
  fun _ => inferInstanceAs (Decidable (_ = true))

theorem reaped_iff {job : BackgroundJob} :
    t.Reaped finished job ↔ finished job.pid = true ∧ job.pid ∈ t.children := by
  rw [Jobs.Reaped, waitpid]
  split_ifs with h
  · exact iff_of_true rfl h
  · exact iff_of_false Bool.false_ne_true h

theorem not_reaped_of_waitpid {job : BackgroundJob}
    (h : waitpid finished t.children job.pid = none) : ¬ t.Reaped finished job := by
  rw [Jobs.Reaped, h]
  exact Bool.false_ne_true

/-- Between the rounds: the answers about the jobs that are still to be polled have not changed, the
jobs that are gone and those that have been passed are the ones polled. -/
structure Polling (finished : Pid → Bool) (t : Jobs) (gone : List BackgroundJob) (c : Cleanup) :
    Prop where
  answers : ∀ job ∈ c.table.bgJobs.drop c.i, c.table.Reaped finished job ↔ t.Reaped finished job
  jobs : t.bgJobs.Perm (gone ++ c.table.bgJobs)
  polled : c.polled.Perm ((gone ++ c.table.bgJobs.take c.i).map BackgroundJob.pid)
  reaped : ∀ job ∈ gone, t.Reaped finished job
  passed : ∀ job ∈ c.table.bgJobs.take c.i, ¬ t.Reaped finished job

theorem Polling.remove {gone : List BackgroundJob} {job : BackgroundJob} {children : List Pid}
    (h : Polling finished t gone c) (hnodup : t.pids.Nodup)
    (hjob : c.table.bgJobs[c.i]? = some job)
    (hwait : waitpid finished c.table.children job.pid = some children)
    (hpolled : c'.polled = c.polled ++ [job.pid]) (hi : c'.i = c.i)
    (htable : c'.table = ⟨swapRemove c.table.bgJobs c.i, children⟩) :
    Polling finished t (job :: gone) c' := by
  have hlt := (List.getElem?_eq_some_iff.mp hjob).1
  have hdrop := drop_swapRemove hjob
  have hreaped : c.table.Reaped finished job := by
    rw [Jobs.Reaped, hwait]
    rfl
  have hjobs : t.bgJobs.Perm (job :: gone ++ swapRemove c.table.bgJobs c.i) :=
    h.jobs.trans (((perm_swapRemove hjob).append_left gone).trans List.perm_middle)
  have hnew : ∀ other ∈ swapRemove c.table.bgJobs c.i, other.pid ≠ job.pid := by
    intro other hother heq
    have hpids : (t.bgJobs.map BackgroundJob.pid).Perm _ := hjobs.map BackgroundJob.pid
    rw [List.cons_append, List.map_cons] at hpids
    refine (List.nodup_cons.mp (hpids.nodup_iff.mp hnodup)).1 ?_
    rw [← heq]
    exact List.mem_map_of_mem (List.mem_append_right _ hother)
  refine ⟨?_, htable ▸ hjobs, ?_, ?_, ?_⟩
  · rw [htable, hi]
    intro other hother
    rw [← h.answers other (hdrop.mem_iff.mpr (List.mem_cons_of_mem _ hother)), reaped_iff,
      reaped_iff, ← (waitpid_eq_some.mp hwait).2]
    simp only [List.mem_erase_of_ne (hnew other (List.mem_of_mem_drop hother))]
  · rw [hpolled, htable, hi, take_swapRemove hlt, List.cons_append, List.map_cons]
    exact (List.perm_append_singleton _ _).trans (h.polled.cons _)
  · refine List.forall_mem_cons.mpr ⟨?_, h.reaped⟩
    exact (h.answers job (hdrop.mem_iff.mpr List.mem_cons_self)).mp hreaped
  · rw [htable, hi, take_swapRemove hlt]
    exact h.passed

theorem Polling.pass {gone : List BackgroundJob} {job : BackgroundJob}
    (h : Polling finished t gone c) (hjob : c.table.bgJobs[c.i]? = some job)
    (hwait : waitpid finished c.table.children job.pid = none)
    (hpolled : c'.polled = c.polled ++ [job.pid]) (hi : c'.i = c.i + 1)
    (htable : c'.table = c.table) : Polling finished t gone c' := by
  have htake : c'.table.bgJobs.take c'.i = c.table.bgJobs.take c.i ++ [job] := by
    rw [htable, hi, List.take_add_one, hjob, Option.toList_some]
  have hhead : job ∈ c.table.bgJobs.drop c.i :=
    (drop_swapRemove hjob).mem_iff.mpr List.mem_cons_self
  refine ⟨?_, htable ▸ h.jobs, ?_, h.reaped, ?_⟩
  · rw [htable, hi, ← List.tail_drop]
    exact fun other hother => h.answers other (List.mem_of_mem_tail hother)
  · rw [hpolled, htake, ← List.append_assoc, List.map_append]
    exact h.polled.append_right _
  · rw [htake]
    refine List.forall_mem_append.mpr ⟨h.passed, List.forall_mem_singleton.mpr ?_⟩
    exact (h.answers job hhead).not.mp (not_reaped_of_waitpid hwait)

theorem Polling.round {gone : List BackgroundJob} (hnodup : t.pids.Nodup)
    (hs : cleanupRound finished c = some c') (h : Polling finished t gone c) :
    ∃ gone', Polling finished t gone' c' := by
  obtain ⟨job, hjob, hpolled, ⟨children, hwait, hi, htable⟩ | ⟨hwait, hi, htable⟩⟩ :=
    cleanupRound_cases hs
  · exact ⟨job :: gone, h.remove hnodup hjob hwait hpolled hi htable⟩
  · exact ⟨gone, h.pass hjob hwait hpolled hi htable⟩

theorem cleanup_polling (finished : Pid → Bool) (hnodup : t.pids.Nodup) :
    ∃ gone, Polling finished t gone (cleanup finished t) :=
  (Loop.reaches_advance _ _ _).invariant (fun c => ∃ gone, Polling finished t gone c)
    (fun _ _ hs ⟨_, hc⟩ => hc.round hnodup hs)
    ⟨[], fun _ _ => .rfl, .refl _, by simp, by simp, by simp⟩

theorem cleanup_take (finished : Pid → Bool) (t : Jobs) :
    (cleanup finished t).table.bgJobs.take (cleanup finished t).i =
      (cleanup finished t).table.bgJobs :=
  List.take_of_length_le (cleanupRound_eq_none (cleanup_ended finished t))

theorem cleanup_polled (finished : Pid → Bool) (hnodup : t.pids.Nodup) :
    (cleanup finished t).polled.Perm t.pids := by
  obtain ⟨gone, hpolling⟩ := cleanup_polling finished hnodup
  have hpolled := hpolling.polled
  rw [cleanup_take] at hpolled
  exact hpolled.trans (hpolling.jobs.map BackgroundJob.pid).symm

theorem cleanup_left (finished : Pid → Bool) (hnodup : t.pids.Nodup) :
    (cleanupBackgroundJobs finished t).bgJobs.Perm
      (t.bgJobs.filter fun job => ¬ t.Reaped finished job) := by
  obtain ⟨gone, hpolling⟩ := cleanup_polling finished hnodup
  have hpassed := hpolling.passed
  rw [cleanup_take] at hpassed
  have hfilter := hpolling.jobs.filter fun job => ¬ t.Reaped finished job
  have hgone : gone.filter (fun job => ¬ t.Reaped finished job) = [] :=
    List.filter_eq_nil_iff.mpr fun job hjob => by simpa using hpolling.reaped job hjob
  rw [List.filter_append, hgone, List.nil_append,
    List.filter_eq_self.mpr fun job hjob => decide_eq_true (hpassed job hjob)] at hfilter
  exact hfilter.symm

end Polling

/-- Cleanup ends, polls each job once, and leaves those about which the answer was not positive. -/
theorem cleanup_exact (finished : Pid → Bool) {t : Jobs} (hnodup : t.pids.Nodup) :
    cleanupRound finished (cleanup finished t) = none ∧
      (cleanup finished t).polled.Perm t.pids ∧
      (cleanupBackgroundJobs finished t).bgJobs.Perm
        (t.bgJobs.filter fun job => (waitpid finished t.children job.pid).isNone) := by
  refine ⟨cleanup_ended finished t, cleanup_polled finished hnodup,
    (cleanup_left finished hnodup).trans (.of_eq (List.filter_congr fun job _ => ?_))⟩
  rw [Bool.eq_iff_iff, decide_eq_true_iff, Jobs.Reaped, Option.isNone_iff_eq_none,
    Option.not_isSome_iff_eq_none]

theorem cleanup_exact_three :
    let t : Jobs := ⟨[⟨2, .empty⟩, ⟨3, .empty⟩, ⟨4, .empty⟩], [2, 3, 4]⟩
    cleanupRound (· ≠ 3) (cleanup (· ≠ 3) t) = none ∧ (cleanup (· ≠ 3) t).polled.Perm [2, 3, 4] ∧
      (cleanupBackgroundJobs (· ≠ 3) t).bgJobs.Perm [⟨3, .empty⟩] :=
  cleanup_exact (· ≠ 3) (by decide)

end OsLab.Shell
